import SqlSelect.Proofs.Number.Ratio
import SqlSelect.Proofs.Recall.Literals

/-
  Numbers as literals. Which texts are read as a whole number
  and as a number at full precision, and which numbers they
  denote. What is read is shown with the same value, unless it
  is a rounded number with too many places.

  Main statements:
    * `Decimal.ofNumeral?_eq_some_iff`
    * `Literal.ofForm?_eq_some_iff_spelled`
    * `Literal.IsNumber`
    * `Literal.shown_ratio_eq_iff`
-/

namespace SqlSelect

------------------------------------------------------------
-- Decimals
------------------------------------------------------------

namespace Decimal

/- A numeral is read if it fits, with the value it denotes. -/
theorem ofNumeral?_eq_some_iff
    {n : Numeral}
    {d : Decimal}
    (hSpelled : n.IsSpelled) :
    ofNumeral? n = some d ↔
      n.digits ≤ 2 ^ 96 - 1 ∧ n.scale ≤ 28 ∧
        d.negative = n.negative ∧ d.scale = n.scale ∧
        d.ratio = n.ratio := by
  rw [ofNumeral?_of_isSpelled hSpelled,
    Option.ite_none_right_eq_some, Option.some.injEq]
  constructor
  · rintro ⟨⟨hDigits, hScale⟩, rfl⟩
    exact ⟨hDigits, hScale, rfl, rfl, rfl⟩
  · rintro ⟨hDigits, hScale, hNegative, hPlaces, hRatio⟩
    refine ⟨⟨hDigits, hScale⟩, ?_⟩
    rw [ratio, Numeral.ratio, Numeral.size, hNegative, hPlaces,
      signed_eq_iff, mul_left_inj' (ten_zpow_pos _).ne',
      Nat.cast_inj] at hRatio
    rw [← hNegative, ← hPlaces, ← hRatio]

end Decimal

------------------------------------------------------------
-- Reading Without Rounding
------------------------------------------------------------

namespace Literal

/-
  A number at full precision is read from a sign or none and
  digits with one point, and has their value, their sign and
  their places.
-/
theorem ofForm?_bigNumber_eq_some_iff
    (t : Text)
    (v : Literal) :
    ofForm? .bigNumber t = some v ↔
      ∃ d sign whole fraction,
        v = .bigNumber d ∧
          Text.trim t = sign ++ whole ++ '.' :: fraction ∧
          IsSign sign d.negative ∧ IsDigits whole ∧
          IsDigits fraction ∧ (whole ≠ [] ∨ fraction ≠ []) ∧
          fraction.length ≤ 28 ∧
          digitsValue (whole ++ fraction) ≤ 2 ^ 96 - 1 ∧
          ratioOf? (Text.trim t) = some d.ratio ∧
          d.scale = fraction.length := by
  rw [ofForm?, ofTrimmed?, Option.map_eq_some_iff]
  constructor
  · rintro ⟨d, hRead, rfl⟩
    rcases Option.bind_eq_some_iff.mp hRead
      with ⟨n, hNumeral, hDecimal⟩
    rcases Numeral.ofText?_eq_some_iff.mp hNumeral
      with ⟨hSpelled, sign, hSign, hText⟩
    rcases (Decimal.ofNumeral?_eq_some_iff hSpelled).mp hDecimal
      with ⟨hDigits, hScale, hNegative, hPlaces, hRatio⟩
    refine
      ⟨d, sign, n.whole, n.fraction, rfl, ?_, ?_,
        hSpelled.whole, hSpelled.fraction, hSpelled.some, hScale,
        hDigits, ?_, hPlaces⟩
    · rw [hText, List.append_assoc]
      rfl
    · rw [hNegative]
      exact hSign
    · rw [ratioOf?_of_ofText? hNumeral, hRatio]
  · rintro
      ⟨d, sign, whole, fraction, rfl, hText, hSign, hWhole,
        hFraction, hSome, hScale, hDigits, hRatio, hPlaces⟩
    have hSpelled :
        Numeral.IsSpelled ⟨d.negative, whole, fraction⟩ :=
      ⟨hWhole, hFraction, hSome⟩
    have hNumeral :
        Numeral.ofText? (Text.trim t) =
          some ⟨d.negative, whole, fraction⟩ := by
      rw [Numeral.ofText?_eq_some_iff]
      refine ⟨hSpelled, sign, hSign, ?_⟩
      rw [hText, List.append_assoc]
      rfl
    have hDecimal :
        Decimal.ofNumeral? ⟨d.negative, whole, fraction⟩ =
          some d := by
      rw [ratioOf?_of_ofText? hNumeral, Option.some.injEq]
        at hRatio
      exact
        (Decimal.ofNumeral?_eq_some_iff hSpelled).mpr
          ⟨hDigits, hScale, rfl, hPlaces, hRatio.symm⟩
    refine ⟨d, ?_, rfl⟩
    rw [hNumeral, Option.bind_some, hDecimal]

/- A whole number is read from a sign or none and digits. -/
theorem ofForm?_integer_eq_some_iff
    (t : Text)
    (v : Literal) :
    ofForm? .integer t = some v ↔
      ∃ k sign negative digits,
        v = .integer k ∧ Text.trim t = sign ++ digits ∧
          IsSign sign negative ∧ IsDigits digits ∧
          digits ≠ [] ∧ -2 ^ 63 ≤ k ∧ k < 2 ^ 63 ∧
          ratioOf? (Text.trim t) = some (k : ℚ) := by
  rw [ofForm?, ofTrimmed?, Option.map_eq_some_iff]
  constructor
  · rintro ⟨k, hRead, rfl⟩
    rcases integerOfText?_eq_some_iff.mp hRead
      with ⟨sign, negative, digits, hText, hSign, hDigits, hSome, -,
        hFits⟩
    exact
      ⟨k, sign, negative, digits, rfl, hText, hSign, hDigits,
        hSome, hFits.1, hFits.2, ratioOf?_of_integerOfText? hRead⟩
  · rintro
      ⟨k, sign, negative, digits, rfl, hText, hSign, hDigits, hSome,
        hLow, hHigh, hRatio⟩
    have hSplit :=
      splitSign_append hSign
        (startsUnsigned_of_isDigits hDigits hSome)
    rw [hText, ratioOf?_of_digits hSplit hDigits hSome,
      ← signed_natCast, Option.some.injEq, Int.cast_inj] at hRatio
    refine ⟨k, ?_, rfl⟩
    exact
      integerOfText?_eq_some_iff.mpr
        ⟨sign, negative, digits, hText, hSign, hDigits, hSome,
          hRatio.symm, hLow, hHigh⟩

/-
  The two forms that never round read exactly the texts that
  are in their range, with the value and the sign as written.
-/
theorem ofForm?_eq_some_iff_spelled
    (t : Text)
    (v : Literal) :
    (ofForm? .bigNumber t = some v ↔
        ∃ d sign whole fraction,
          v = .bigNumber d ∧
            Text.trim t = sign ++ whole ++ '.' :: fraction ∧
            IsSign sign d.negative ∧ IsDigits whole ∧
            IsDigits fraction ∧ (whole ≠ [] ∨ fraction ≠ []) ∧
            fraction.length ≤ 28 ∧
            digitsValue (whole ++ fraction) ≤ 2 ^ 96 - 1 ∧
            ratioOf? (Text.trim t) = some d.ratio ∧
            d.scale = fraction.length) ∧
      (ofForm? .integer t = some v ↔
        ∃ k sign negative digits,
          v = .integer k ∧ Text.trim t = sign ++ digits ∧
            IsSign sign negative ∧ IsDigits digits ∧
            digits ≠ [] ∧ -2 ^ 63 ≤ k ∧ k < 2 ^ 63 ∧
            ratioOf? (Text.trim t) = some (k : ℚ)) :=
  ⟨ofForm?_bigNumber_eq_some_iff t v, ofForm?_integer_eq_some_iff t v⟩

------------------------------------------------------------
-- Showing What Was Read
------------------------------------------------------------

/- The literal is a number of some kind. -/
def IsNumber : Literal → Prop
  | .integer _ | .number _ | .bigNumber _ => True
  | _ => False

instance
    (v : Literal) :
    Decidable (IsNumber v) :=
  match v with
  | .integer _ | .number _ | .bigNumber _ => isTrue trivial
  | .string _ | .boolean _ | .date _ => isFalse id

/- What is read as a number, and how many digits it has. -/
theorem cases_of_isNumber
    {t : Text}
    {v : Literal}
    (hRead : ofText? t = some v)
    (hNumber : IsNumber v) :
    (∃ k, v = .integer k ∧ integerOfText? (Text.trim t) = some k) ∨
      (∃ n,
        v = .number (Binary64.ofNumeral n) ∧
          Numeral.ofText? (Text.trim t) = some n ∧
          n.digits < 10 ^ maxRoundedDigits) ∨
      ∃ n d,
        v = .bigNumber d ∧
          Numeral.ofText? (Text.trim t) = some n ∧
          Decimal.ofNumeral? n = some d ∧
          10 ^ maxRoundedDigits ≤ n.digits := by
  rcases exists_form_of_ofText? hRead with ⟨form, hForm, hPoint⟩
  cases form with
  | integer =>
      rcases Option.map_eq_some_iff.mp hForm with ⟨k, hInteger, rfl⟩
      exact Or.inl ⟨k, rfl, hInteger⟩
  | number =>
      rcases Option.map_eq_some_iff.mp hForm with ⟨n, hNumeral, rfl⟩
      have hDigits := (pointForm_eq_number_iff hNumeral).1
      exact
        Or.inr (Or.inl
          ⟨n, rfl, hNumeral, hDigits.mp (hPoint (Or.inl rfl)).symm⟩)
  | bigNumber =>
      rcases Option.map_eq_some_iff.mp hForm with ⟨d, hBoth, rfl⟩
      rcases Option.bind_eq_some_iff.mp hBoth
        with ⟨n, hNumeral, hDecimal⟩
      have hDigits := (pointForm_eq_number_iff hNumeral).2
      exact
        Or.inr (Or.inr
          ⟨n, d, rfl, hNumeral, hDecimal,
            hDigits.mp (hPoint (Or.inr rfl)).symm⟩)
  | string =>
      rcases Option.map_eq_some_iff.mp hForm with ⟨a, -, rfl⟩
      exact hNumber.elim
  | boolean =>
      rcases Option.map_eq_some_iff.mp hForm with ⟨a, -, rfl⟩
      exact hNumber.elim
  | date =>
      rcases Option.map_eq_some_iff.mp hForm with ⟨a, -, rfl⟩
      exact hNumber.elim

/-
  The text of a number denotes a number, and so does what is
  shown of it. They are the same for whole numbers and for
  numbers at full precision, and for rounded numbers exactly
  if the numeral is kept.
-/
theorem shown_ratio_eq_iff
    {t : Text}
    {v : Literal}
    (hRead : ofText? t = some v)
    (hNumber : IsNumber v) :
    ∃ q shownRatio,
      ratioOf? (Text.trim t) = some q ∧
        ratioOf? v.shown = some shownRatio ∧
        (shownRatio = q ↔
          (v.category = .number →
            ∃ n,
              Numeral.ofText? (Text.trim t) = some n ∧
                n.IsKept)) := by
  rcases cases_of_isNumber hRead hNumber
    with ⟨k, rfl, hInteger⟩ | ⟨n, rfl, hNumeral, hFew⟩
      | ⟨n, d, rfl, hNumeral, hDecimal, -⟩
  · exact
      ⟨k, k, ratioOf?_of_integerOfText? hInteger,
        ratioOf?_integerText k, iff_of_true rfl nofun⟩
  · have hSpelled := Numeral.isSpelled_of_ofText? hNumeral
    rcases exists_ratioOf?_number_text hSpelled hFew
      with ⟨q, hShown, hKept⟩
    refine ⟨n.ratio, q, ratioOf?_of_ofText? hNumeral, hShown, ?_⟩
    rw [hKept]
    constructor
    · intro h _
      exact ⟨n, hNumeral, h⟩
    · intro h
      rcases h rfl with ⟨other, hOther, hOtherKept⟩
      rw [hNumeral, Option.some.injEq] at hOther
      rw [hOther]
      exact hOtherKept
  · have hSpelled := Numeral.isSpelled_of_ofText? hNumeral
    rcases (Decimal.ofNumeral?_eq_some_iff hSpelled).mp hDecimal
      with ⟨-, -, -, -, hRatio⟩
    exact
      ⟨n.ratio, d.ratio, ratioOf?_of_ofText? hNumeral,
        ratioOf?_decimal_text d, iff_of_true hRatio nofun⟩

theorem shown_ratio_eq_iff_half :
    ofText? " -012.50 ".toList =
        some (.number (.finite true 7036874417766400 (-49))) ∧
      IsNumber (.number (.finite true 7036874417766400 (-49))) ∧
      ∃ q shownRatio,
        ratioOf? (Text.trim " -012.50 ".toList) = some q ∧
          ratioOf?
              (Literal.number
                (.finite true 7036874417766400 (-49))).shown =
            some shownRatio ∧
          (shownRatio = q ↔
            ((Literal.number
                (.finite true 7036874417766400 (-49))).category =
                .number →
              ∃ n,
                Numeral.ofText? (Text.trim " -012.50 ".toList) =
                    some n ∧
                  n.IsKept)) :=
  ⟨by decide, by decide,
    shown_ratio_eq_iff (by decide) (by decide)⟩

/- One at the 324th place is read as zero. -/
theorem not_forall_shown_ratio_eq :
    ¬ ∀ t v,
      ofText? t = some v → IsNumber v →
        ∃ q,
          ratioOf? (Text.trim t) = some q ∧
            ratioOf? v.shown = some q := by
  intro hAll
  have hRead :
      ofText? ("0.".toList ++ List.replicate 323 '0' ++ ['1']) =
        some (.number (.finite false 0 Binary64.minExponent)) := by
    decide +kernel
  have hNumeral :
      Numeral.ofText?
          (Text.trim
            ("0.".toList ++ List.replicate 323 '0' ++ ['1'])) =
        some ⟨false, ['0'], List.replicate 323 '0' ++ ['1']⟩ := by
    decide +kernel
  have hDigits :
      digitsValue (['0'] ++ (List.replicate 323 '0' ++ ['1'])) =
        1 := by
    decide +kernel
  rcases hAll _ _ hRead trivial with ⟨q, hText, hShown⟩
  have hZero : some (signed false (0 : ℚ)) = some q := by
    have hPositional := ratioOf?_positional false 0 0
    rw [Nat.cast_zero, zero_mul] at hPositional
    rw [← hPositional]
    exact hShown
  rw [ratioOf?_of_ofText? hNumeral, Numeral.ratio, ← hZero,
    Option.some.injEq, signed_eq_iff, Numeral.size,
    Numeral.digits, hDigits, Nat.cast_one, one_mul] at hText
  exact (ten_zpow_pos _).ne' hText

end Literal

end SqlSelect
