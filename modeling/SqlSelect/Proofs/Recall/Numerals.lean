import SqlSelect.Proofs.Literal.Numbers

/-
  Numbers in writing. A number that was read is read back from
  its text, with the same value, unless the text that it was
  read from ends with its point and has fifteen digits or
  more: a rounded number is then written with one digit more
  than is rounded, and a number at full precision without its
  point.

  Main statements:
    * `Numeral.getLast?_eq_point_iff`
    * `Rounding.pointed_lt_iff`
    * `Literal.significantDigits_pointedText_le_iff`
    * `Literal.sameOptional_written_iff_point`
-/

namespace SqlSelect

------------------------------------------------------------
-- Points at the End
------------------------------------------------------------

theorem getLast?_append_digits
    (t : Text)
    {digits : Text}
    (hDigits : IsDigits digits)
    (hSome : digits ≠ []) :
    (t ++ digits).getLast? ≠ some '.' := by
  rw [List.getLast?_append_of_ne_nil _ hSome]
  intro hLast
  exact
    point_not_mem_of_isDigits hDigits (List.mem_of_getLast? hLast)

/- A numeral ends with its point if no digits follow it. -/
theorem Numeral.getLast?_eq_point_iff
    {t : Text}
    {n : Numeral}
    (hRead : Numeral.ofText? t = some n) :
    t.getLast? = some '.' ↔ n.fraction = [] := by
  rcases Numeral.ofText?_eq_some_iff.mp hRead
    with ⟨hSpelled, sign, -, rfl⟩
  rw [Numeral.body, ← List.append_assoc]
  constructor
  · intro hLast
    by_contra hSome
    apply getLast?_append_digits (sign ++ n.whole ++ ['.'])
      hSpelled.fraction hSome
    rwa [List.append_assoc]
  · intro hNone
    rw [hNone]
    exact List.getLast?_concat

/- A whole number has no point. -/
theorem getLast?_ne_point_of_integer
    {t : Text}
    {k : Int}
    (hRead : integerOfText? t = some k) :
    t.getLast? ≠ some '.' := by
  rcases integerOfText?_eq_some_iff.mp hRead
    with ⟨sign, -, digits, rfl, -, hDigits, hSome, -⟩
  exact getLast?_append_digits sign hDigits hSome

------------------------------------------------------------
-- Digits of a Rounded Number
------------------------------------------------------------

namespace Rounding

/-
  What is found is written with at least one place. These are
  more than fifteen digits if it has fifteen of them without
  any place, as the numeral then has.
-/
theorem pointed_lt_iff
    {source : Numeral}
    {m digits scale : Nat}
    {e : Int}
    (hSome : 0 < m)
    (hFew : source.digits < 10 ^ 15)
    (hRounded :
      Binary64.ofNumeral source = .finite source.negative m e)
    (hScale : scale = max 1 (-(ofParts m e).shortest.2).toNat)
    (hValue :
      (digits : ℚ) * 10 ^ (-(scale : Int)) =
        (ofParts m e).shortest.1
          * 10 ^ (ofParts m e).shortest.2) :
    digits < 10 ^ 15 ↔
      (source.scale = 0 → source.digits < 10 ^ 14) := by
  rcases (Binary64.ofNumeral_eq_iff_covers hSome).mp hRounded
    with ⟨hNormal, hCovers⟩
  have hShortest := shortest_lt hSome hFew hCovers
  have hPower := le_power_shortest hSome hCovers
  have hWhole := shortest_value_eq_of_whole hNormal hFew hCovers
  generalize (ofParts m e).shortest = found
    at hScale hValue hShortest hPower hWhole
  rcases Int.lt_or_le found.2 0 with hPlaces | hNone
  · -- The digits are those that are found.
    have hSame : -(scale : Int) = found.2 := by omega
    rw [hSame, mul_left_inj' (ten_zpow_pos _).ne', Nat.cast_inj]
      at hValue
    rw [hValue]
    refine iff_of_true hShortest fun hZero => ?_
    rw [hZero] at hPower
    omega
  · -- The digits are those of the numeral, and a zero.
    have hOne : scale = 1 := by omega
    rw [hWhole hNone, hOne] at hValue
    rcases Nat.eq_zero_or_pos source.scale with hZero | hPos
    · rw [hZero] at hValue
      have hTimes : digits = 10 * source.digits := by
        norm_num at hValue
        have hCast : (digits : ℚ) = 10 * source.digits := by
          linarith
        exact_mod_cast hCast
      rw [hTimes]
      constructor
      · intro hLess _
        omega
      · intro hLess
        have hLess' := hLess hZero
        omega
    · refine iff_of_true ?_ fun hZero => absurd hZero hPos.ne'
      have hUnit : (10 : ℚ) ^ (-(source.scale : Int)) ≤
          10 ^ (-((1 : Nat) : Int)) :=
        zpow_le_zpow_right₀ (by norm_num) (by omega)
      have hMul :
          (source.digits : ℚ) * 10 ^ (-(source.scale : Int)) ≤
            source.digits * 10 ^ (-((1 : Nat) : Int)) := by
        gcongr
      rw [← hValue,
        mul_le_mul_iff_left₀ (ten_zpow_pos _)] at hMul
      have hLess : digits ≤ source.digits := by exact_mod_cast hMul
      omega

end Rounding

namespace Literal

/-
  A number that was read is written with at most fifteen
  digits, unless it was read from as many in front of a point.
-/
theorem significantDigits_pointedText_le_iff
    {source : Numeral}
    (hFew : source.digits < 10 ^ maxRoundedDigits) :
    significantDigits (Binary64.ofNumeral source).pointedText ≤
        maxRoundedDigits ↔
      (source.scale = 0 → source.digits < 10 ^ 14) := by
  have hWritten
      {n : Numeral}
      (hText :
        (Binary64.ofNumeral source).pointedText =
          minusSign n.negative ++ n.body)
      (hSpelled : n.IsSpelled) :
      significantDigits (Binary64.ofNumeral source).pointedText ≤
          maxRoundedDigits ↔
        n.digits < 10 ^ maxRoundedDigits := by
    rw [hText]
    exact
      significantDigits_body_le_iff hSpelled
        (isSign_minusSign n.negative).all_not_digit _
  rcases Binary64.ofRatio_cases source.negative hFew
      (Nat.pow_pos (by decide) : 0 < 10 ^ source.scale)
    with hZero | ⟨m, e, hSome, hDigits, hNumber⟩
  · have hRounded :
        Binary64.ofNumeral source =
          .finite source.negative 0 Binary64.minExponent := hZero
    have hText :
        (Binary64.ofNumeral source).text =
          minusSign source.negative ++ positional 0 0 := by
      rw [hRounded]
      rfl
    rcases Binary64.exists_body_of_text hText
      with ⟨n, hPointed, hSpelled, -, -, hValue⟩
    have hNone : n.digits = 0 := by
      rw [Nat.cast_zero, zero_mul, mul_eq_zero] at hValue
      exact_mod_cast hValue.resolve_right (ten_zpow_pos _).ne'
    rw [hWritten hPointed hSpelled, hNone]
    refine iff_of_true (Nat.pow_pos (by decide)) fun hPlaces => ?_
    -- What is rounded to zero is less than one.
    by_contra hMany
    have hDigits : 0 < source.digits := by omega
    have hHalf :=
      Binary64.le_of_ofRatio_eq_zero hDigits
        (Nat.pow_pos (by decide)) hZero
    have hLeast : (2 : ℚ) ^ Binary64.minExponent ≤ 2 ^ (0 : Int) :=
      zpow_le_zpow_right₀ (by norm_num) (by decide)
    have hCast : (1 : ℚ) ≤ source.digits := by
      exact_mod_cast hDigits
    rw [hPlaces, Nat.pow_zero, Nat.cast_one, div_one] at hHalf
    rw [zpow_zero] at hLeast
    linarith
  · have hRounded :
        Binary64.ofNumeral source = .finite source.negative m e :=
      hNumber
    have hText := Binary64.text_finite source.negative e hSome
    rw [← hRounded] at hText
    rcases Binary64.exists_body_of_text hText
      with ⟨n, hPointed, hSpelled, -, hScale, hValue⟩
    rw [Binary64.positional_multiple] at hValue
    rw [hWritten hPointed hSpelled]
    exact Rounding.pointed_lt_iff hSome hFew hRounded hScale hValue

/-
  A number that was read is read back with the same value
  unless its text ends with the point behind fifteen digits or
  more.
-/
theorem sameOptional_written_iff_point
    {t : Text}
    {v : Literal}
    (hRead : ofText? t = some v)
    (hNumber : IsNumber v) :
    SameOptional (some v) (ofText? v.written) ↔
      ¬ ((Text.trim t).getLast? = some '.' ∧
        maxRoundedDigits ≤ significantDigits t) := by
  rw [sameOptional_ofText?_written_iff (isRead_of_ofText? hRead)]
  rcases cases_of_isNumber hRead hNumber
    with ⟨k, rfl, hInteger⟩ | ⟨n, rfl, hNumeral, hFew⟩
      | ⟨n, d, rfl, hNumeral, hDecimal, hMany⟩
  · exact
      iff_of_true trivial fun hBoth =>
        getLast?_ne_point_of_integer hInteger hBoth.1
  · have hDigits := significantDigits_le_iff hNumeral 14
    have hScale : n.scale = 0 ↔ n.fraction = [] :=
      List.length_eq_zero_iff
    rw [Numeral.getLast?_eq_point_iff hNumeral, ← hScale, Recalled,
      significantDigits_pointedText_le_iff hFew, ← hDigits]
    rw [maxRoundedDigits]
    omega
  · have hDigits := significantDigits_le_iff hNumeral 14
    have hSpelled := Numeral.isSpelled_of_ofText? hNumeral
    rcases (Decimal.ofNumeral?_eq_some_iff hSpelled).mp hDecimal
      with ⟨-, -, -, hPlaces, -⟩
    have hScale : d.scale = 0 ↔ n.fraction = [] := by
      rw [hPlaces]
      exact List.length_eq_zero_iff
    rw [Numeral.getLast?_eq_point_iff hNumeral, ← hScale, Recalled]
    rw [maxRoundedDigits] at hMany ⊢
    omega

theorem sameOptional_written_iff_point_tenPlaces :
    ofText? "1234567890.1234567890".toList =
        some (.bigNumber ⟨false, 12345678901234567890, 10⟩) ∧
      IsNumber (.bigNumber ⟨false, 12345678901234567890, 10⟩) ∧
      (SameOptional
          (some (.bigNumber ⟨false, 12345678901234567890, 10⟩))
          (ofText?
            (Literal.bigNumber
              ⟨false, 12345678901234567890, 10⟩).written) ↔
        ¬ ((Text.trim "1234567890.1234567890".toList).getLast? =
              some '.' ∧
            maxRoundedDigits ≤
              significantDigits "1234567890.1234567890".toList)) :=
  ⟨by decide +kernel, trivial,
    sameOptional_written_iff_point (by decide +kernel) trivial⟩

/- A number in full is a whole number without its point. -/
theorem not_forall_sameOptional_written :
    ¬ ∀ t v,
      ofText? t = some v → IsNumber v →
        SameOptional (some v) (ofText? v.written) := by
  intro hAll
  have hRead :
      ofText? "1234567890123456.".toList =
        some (.bigNumber ⟨false, 1234567890123456, 0⟩) := by
    decide +kernel
  have hOther :
      ¬ SameOptional
          (some (.bigNumber ⟨false, 1234567890123456, 0⟩))
          (ofText?
            (Literal.bigNumber
              ⟨false, 1234567890123456, 0⟩).written) := by
    decide +kernel
  exact hOther (hAll _ _ hRead trivial)

end Literal

end SqlSelect
