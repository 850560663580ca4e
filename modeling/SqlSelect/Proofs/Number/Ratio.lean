import Mathlib.Data.List.DropRight
import SqlSelect.Number.Decimal
import SqlSelect.Proofs.Number.Closest

/-
  The numbers that texts denote, without any rounding: a sign
  or none, and digits with one point among them or none. Whole
  numbers and decimals are read and written as they are. A
  rounded number is written as the numeral it was read from
  unless the numeral has too many places.

  Main statements:
    * `ratioOf?`
    * `Numeral.IsShortest`
    * `Numeral.IsKept`
    * `ratioOf?_of_ofText?`
    * `ratioOf?_decimal_text`
    * `Numeral.shortest_eq_size_iff`
    * `exists_ratioOf?_number_text`
-/

namespace SqlSelect

------------------------------------------------------------
-- Signs
------------------------------------------------------------

/- A size with a sign. -/
def signed
    (negative : Bool)
    (size : ℚ) : ℚ :=
  if negative then -size else size

@[simp]
theorem signed_zero
    (negative : Bool) :
    signed negative 0 = 0 := by
  cases negative with
  | true => exact neg_zero
  | false => rfl

@[simp]
theorem signed_eq_iff
    (negative : Bool)
    (a b : ℚ) :
    signed negative a = signed negative b ↔ a = b := by
  cases negative with
  | true => exact neg_inj
  | false => exact Iff.rfl

theorem signed_natCast
    (negative : Bool)
    (n : Nat) :
    ((if negative = true then -(n : Int) else n : Int) : ℚ) =
      signed negative n := by
  cases negative with
  | true => simp [signed]
  | false => rfl

------------------------------------------------------------
-- Numbers of Texts
------------------------------------------------------------

namespace Numeral

/- The number without its sign. -/
def size
    (n : Numeral) : ℚ :=
  n.digits * 10 ^ (-(n.scale : Int))

/- The number that the digits and the point denote. -/
def ratio
    (n : Numeral) : ℚ :=
  signed n.negative n.size

end Numeral

/- The number with its last `scale` digits behind the point. -/
def Decimal.ratio
    (d : Decimal) : ℚ :=
  signed d.negative (d.coefficient * 10 ^ (-(d.scale : Int)))

/-
  The number that a text denotes: a sign or none, and digits,
  with one point among them, in front of them or behind, or
  with none.
-/
def ratioOf?
    (t : Text) : Option ℚ :=
  let (negative, unsigned) := splitSign t
  let (whole, fraction) :=
    (Text.cutAt? '.' unsigned).getD (unsigned, [])
  if (whole ≠ [] ∨ fraction ≠ []) ∧ IsDigits whole ∧ IsDigits fraction
  then some (Numeral.ratio ⟨negative, whole, fraction⟩)
  else none

/- A numeral denotes its ratio. -/
theorem ratioOf?_of_ofText?
    {t : Text}
    {n : Numeral}
    (hRead : Numeral.ofText? t = some n) :
    ratioOf? t = some n.ratio := by
  rw [Numeral.ofText?] at hRead
  simp only [Option.bind_eq_some_iff] at hRead
  rcases hRead with ⟨⟨whole, fraction⟩, hCut, hParts⟩
  rw [Option.ite_none_right_eq_some, Option.some.injEq] at hParts
  rcases hParts with ⟨hParts, rfl⟩
  rw [ratioOf?]
  simp only [hCut, Option.getD_some]
  exact if_pos hParts

/- Digits without a point denote a whole number. -/
theorem ratioOf?_of_digits
    {t digits : Text}
    {negative : Bool}
    (hSplit : splitSign t = (negative, digits))
    (hDigits : IsDigits digits)
    (hSome : digits ≠ []) :
    ratioOf? t = some (signed negative (digitsValue digits)) := by
  have hCut : Text.cutAt? '.' digits = none :=
    Text.cutAt?_eq_none (point_not_mem_of_isDigits hDigits)
  rw [ratioOf?]
  simp only [hSplit, hCut, Option.getD_none]
  rw [if_pos ⟨Or.inl hSome, hDigits, isDigits_nil⟩]
  simp [Numeral.ratio, Numeral.size, Numeral.digits, Numeral.scale]

theorem ratioOf?_of_integerOfText?
    {t : Text}
    {k : Int}
    (hRead : integerOfText? t = some k) :
    ratioOf? t = some (k : ℚ) := by
  rcases integerOfText?_eq_some_iff.mp hRead
    with ⟨sign, negative, digits, rfl, hSign, hDigits, hSome, rfl, -⟩
  have hSplit :=
    splitSign_append hSign (startsUnsigned_of_isDigits hDigits hSome)
  rw [ratioOf?_of_digits hSplit hDigits hSome, signed_natCast]

/- So does a text with a number of places. -/
theorem ratioOf?_positional
    (negative : Bool)
    (digits scale : Nat) :
    ratioOf? (minusSign negative ++ positional digits scale) =
      some (signed negative (digits * 10 ^ (-(scale : Int)))) := by
  by_cases hPlaces : scale = 0
  · have hDigits := isDigits_digitsOf digits
    have hSome := digitsOf_ne_nil digits
    have hSplit :=
      splitSign_minusSign negative
        (startsUnsigned_of_isDigits hDigits hSome)
    rw [hPlaces, Numeral.positional_zero,
      ratioOf?_of_digits hSplit hDigits hSome,
      digitsValue_digitsOf, Nat.cast_zero, neg_zero, zpow_zero,
      mul_one]
  · rcases Numeral.exists_positional negative digits hPlaces
      with ⟨n, hBody, hSpelled, rfl, rfl, rfl⟩
    rw [hBody, ratioOf?_of_ofText? (Numeral.ofText?_body hSpelled)]
    rfl

/- A decimal is written as it is. -/
theorem ratioOf?_decimal_text
    (d : Decimal) :
    ratioOf? d.text = some d.ratio :=
  ratioOf?_positional d.negative d.coefficient d.scale

/- A whole number is written as it is. -/
theorem ratioOf?_integerText
    (k : Int) :
    ratioOf? (integerText k) = some (k : ℚ) := by
  have hText :
      integerText k =
        minusSign (decide (k < 0)) ++ positional k.natAbs 0 := by
    rw [Numeral.positional_zero]
    rfl
  rw [hText, ratioOf?_positional, Nat.cast_zero, neg_zero,
    zpow_zero, mul_one, ← signed_natCast, ← signed_natAbs]

------------------------------------------------------------
-- Places of a Numeral
------------------------------------------------------------

namespace Numeral

/- The numeral without the zeros at the end of its places. -/
def reduced
    (n : Numeral) : Numeral :=
  { n with fraction := n.fraction.rdropWhile fun c => c == '0' }

theorem exists_zeros
    (n : Numeral) :
    ∃ zeros,
      n.fraction =
        n.reduced.fraction ++ List.replicate zeros '0' := by
  refine
    ⟨(n.fraction.rtakeWhile fun c => c == '0').length, ?_⟩
  have hZeros :
      (n.fraction.rtakeWhile fun c => c == '0') =
        List.replicate
          (n.fraction.rtakeWhile fun c => c == '0').length '0' :=
    List.eq_replicate_of_mem fun c hMem =>
      eq_of_beq
        (List.mem_rtakeWhile_imp (p := fun c => c == '0') hMem)
  rw [← hZeros]
  exact List.rdropWhile_append_rtakeWhile.symm

/- The zeros count in the digits and in the places alike. -/
theorem exists_reduced
    (n : Numeral) :
    ∃ zeros,
      n.digits = n.reduced.digits * 10 ^ zeros ∧
        n.scale = n.reduced.scale + zeros := by
  rcases exists_zeros n with ⟨zeros, hFraction⟩
  refine ⟨zeros, ?_, ?_⟩
  · rw [digits, hFraction, ← List.append_assoc,
      digitsValue_append, digitsValue_replicate_zero,
      List.length_replicate, add_zero, mul_comm]
    rfl
  · rw [scale, hFraction, List.length_append,
      List.length_replicate]
    rfl

theorem digits_reduced_le
    (n : Numeral) :
    n.reduced.digits ≤ n.digits := by
  rcases exists_reduced n with ⟨zeros, hDigits, -⟩
  rw [hDigits]
  exact Nat.le_mul_of_pos_right _ (Nat.pow_pos (by decide))

theorem digits_reduced_pos
    {n : Numeral}
    (hDigits : 0 < n.digits) :
    0 < n.reduced.digits := by
  rcases exists_reduced n with ⟨zeros, hReduced, -⟩
  rw [hReduced] at hDigits
  exact Nat.pos_of_mul_pos_right hDigits

theorem size_reduced
    (n : Numeral) :
    n.reduced.size = n.size := by
  rcases exists_reduced n with ⟨zeros, hDigits, hScale⟩
  have hPos : (10 : ℚ) ^ zeros ≠ 0 := by positivity
  rw [size, size, hDigits, hScale]
  push_cast
  rw [neg_add, zpow_add₀ (by norm_num), zpow_neg _ (zeros : Int),
    zpow_natCast]
  field_simp

/- The last place that is left is not zero. -/
theorem digits_reduced_mod_ne_zero
    {n : Numeral}
    (hSpelled : IsSpelled n)
    (hPlaces : n.reduced.scale ≠ 0) :
    n.reduced.digits % 10 ≠ 0 := by
  have hSome : n.reduced.fraction ≠ [] :=
    mt List.length_eq_zero_iff.mpr hPlaces
  have hLast : n.reduced.fraction.getLast hSome ≠ '0' := fun hZero =>
    List.rdropWhile_last_not (fun c => c == '0') n.fraction hSome
      (beq_iff_eq.mpr hZero)
  have hDigit : (n.reduced.fraction.getLast hSome).isDigit = true :=
    isDigit_of_mem hSpelled.fraction
      ((List.rdropWhile_prefix _ _).mem (List.getLast_mem hSome))
  rcases digitsValue_singleton hDigit with ⟨hLess, hZero⟩
  have hValue := mt hZero hLast
  have hDigits :
      n.reduced.digits =
        10 ^ 1 * digitsValue
            (n.reduced.whole ++ n.reduced.fraction.dropLast)
          + digitsValue [n.reduced.fraction.getLast hSome] := by
    rw [← List.length_singleton (a := n.reduced.fraction.getLast hSome),
      ← digitsValue_append, List.append_assoc,
      List.dropLast_append_getLast hSome]
    rfl
  omega

------------------------------------------------------------
-- Numerals That Are Kept
------------------------------------------------------------

/-
  The numeral is rounded to the number, no decimal of fewer
  places is, and of those of as many places none is nearer to
  the number; of two equally near ones it is the larger.
-/
structure IsShortest
    (n : Numeral)
    (m : Nat)
    (e : Int) : Prop where
  rounded : Binary64.ofNumeral n = .finite n.negative m e
  fewest :
    ∀ other places,
      places < n.scale →
        Binary64.ofRatio n.negative other (10 ^ places) ≠
          .finite n.negative m e
  nearest :
    ∀ other,
      Binary64.ofRatio n.negative other (10 ^ n.scale) =
          .finite n.negative m e →
        Binary64.IsPreferred m e (-(n.scale : Int)) n.digits other

/-
  The numeral survives rounding: its last place that is not
  zero is one of the first 323, or it is the next one and no
  other decimal is written for the same number.
-/
def IsKept
    (n : Numeral) : Prop :=
  n.reduced.scale < 324 ∨
    (n.reduced.scale = 324 ∧ ∃ m e, n.reduced.IsShortest m e)

end Numeral

namespace Binary64

/- The number depends on the ratio alone. -/
theorem ofRatio_congr
    (negative : Bool)
    {num den num' den' : Nat}
    (hNum : 0 < num)
    (hDen : 0 < den)
    (hNum' : 0 < num')
    (hDen' : 0 < den')
    (hSame : (num : ℚ) / den = num' / den') :
    ofRatio negative num den = ofRatio negative num' den' := by
  rcases exists_lastPlace_nearest hNum hDen
    with ⟨place, r, hPlace, hNear⟩
  rw [ofRatio_eq negative hNum hDen hPlace hNear]
  rw [hSame] at hPlace hNear
  rw [ofRatio_eq negative hNum' hDen' hPlace hNear]

/- What is rounded to zero is half the smallest number at most. -/
theorem le_of_ofRatio_eq_zero
    {negative : Bool}
    {num den : Nat}
    (hNum : 0 < num)
    (hDen : 0 < den)
    (hZero :
      ofRatio negative num den = .finite negative 0 minExponent) :
    2 * ((num : ℚ) / den) ≤ 2 ^ minExponent := by
  rcases exists_lastPlace_nearest hNum hDen
    with ⟨place, r, hPlace, hNear⟩
  rw [ofRatio_eq negative hNum hDen hPlace hNear] at hZero
  split_ifs at hZero
  · exact absurd (Binary64.finite.inj hZero).2.1 (by decide)
  · rcases Binary64.finite.inj hZero with ⟨-, rfl, rfl⟩
    have hHigh := hNear.le.2
    rw [div_le_iff₀ (two_zpow_pos _)] at hHigh
    push_cast at hHigh
    linarith

end Binary64

namespace Numeral

variable {n : Numeral}

theorem ofNumeral_reduced
    (hDigits : 0 < n.digits) :
    Binary64.ofNumeral n.reduced = Binary64.ofNumeral n := by
  apply Binary64.ofRatio_congr n.negative
    (digits_reduced_pos hDigits) (Nat.pow_pos (by decide)) hDigits
    (Nat.pow_pos (by decide))
  rw [Binary64.ratio_decimal, Binary64.ratio_decimal]
  exact size_reduced n

/-
  A numeral with places is the shortest one of its number
  exactly when it is the closest decimal to it.
-/
theorem isShortest_iff_isClosest
    {m : Nat}
    {e : Int}
    (hSome : 0 < m)
    (hPlaces : n.scale ≠ 0)
    (hRounded : Binary64.ofNumeral n = .finite n.negative m e) :
    n.IsShortest m e ↔
      Binary64.IsClosest m e n.digits (-(n.scale : Int)) := by
  rcases (Binary64.ofNumeral_eq_iff_covers hSome).mp hRounded
    with ⟨hNormal, hCovers⟩
  constructor
  · intro hShortest
    refine ⟨hCovers, ?_, ?_⟩
    · intro other power hMore hOther
      -- A greater power is one of fewer places, or a multiple
      -- of one if it is no place at all.
      apply hShortest.fewest (other * 10 ^ power.toNat)
        (-power).toNat (by omega)
      rw [Binary64.ofDecimal_eq_iff_covers _ _ _ hSome,
        Binary64.positional_multiple]
      exact ⟨hNormal, hOther⟩
    · intro other hOther
      apply hShortest.nearest
      rw [Binary64.ofDecimal_eq_iff_covers _ _ _ hSome]
      exact ⟨hNormal, hOther⟩
  · intro hClosest
    refine ⟨hRounded, ?_, ?_⟩
    · intro other places hFewer hOther
      rw [Binary64.ofDecimal_eq_iff_covers _ _ _ hSome]
        at hOther
      exact
        hClosest.fewest other (-(places : Int)) (by omega) hOther.2
    · intro other hOther
      rw [Binary64.ofDecimal_eq_iff_covers _ _ _ hSome]
        at hOther
      exact hClosest.nearest other hOther.2

/- Zero is shorter without any places. -/
theorem not_isShortest_zero
    {e : Int}
    (hPlaces : n.scale ≠ 0)
    (hRounded :
      Binary64.ofNumeral n =
        .finite n.negative 0 Binary64.minExponent)
    {m : Nat} :
    ¬ n.IsShortest m e := by
  intro hShortest
  have hSame := hShortest.rounded
  rw [hRounded] at hSame
  apply hShortest.fewest 0 0 (Nat.pos_of_ne_zero hPlaces)
  rw [Binary64.ofRatio, if_pos rfl, hSame]

------------------------------------------------------------
-- Writing a Rounded Number
------------------------------------------------------------

/- A last place that is not zero is no multiple of a greater one. -/
theorem le_of_multiple_eq
    {multiple digits scale : Nat}
    {power : Int}
    (hLast : digits % 10 ≠ 0)
    (hSame :
      (multiple : ℚ) * 10 ^ power =
        digits * 10 ^ (-(scale : Int))) :
    power ≤ -(scale : Int) := by
  by_contra hMore
  obtain ⟨steps, rfl⟩ :
      ∃ steps : Nat, power = (steps + 1 : Nat) + -(scale : Int) :=
    ⟨(power + scale - 1).toNat, by omega⟩
  have hUnit := (ten_zpow_pos (-(scale : Int))).ne'
  rw [zpow_add₀ (by norm_num), zpow_natCast, ← mul_assoc,
    mul_left_inj' hUnit] at hSame
  have hDigits : multiple * 10 ^ (steps + 1) = digits := by
    exact_mod_cast hSame
  apply hLast
  rw [← hDigits, Nat.pow_succ, ← Nat.mul_assoc]
  exact Nat.mul_mod_left _ _

/-
  The decimal that is found for the number of a numeral is the
  numeral, if its places end with one that is not zero: always
  within the first 323 places, at the next one where it is the
  closest, and never behind that.
-/
theorem shortest_eq_size_iff
    {m : Nat}
    {e : Int}
    (hSome : 0 < m)
    (hFew : n.digits < 10 ^ 15)
    (hLast : n.scale ≠ 0 → n.digits % 10 ≠ 0)
    (hRounded : Binary64.ofNumeral n = .finite n.negative m e) :
    ((Rounding.ofParts m e).shortest.1 : ℚ)
          * 10 ^ (Rounding.ofParts m e).shortest.2 = n.size ↔
      n.scale < 324 ∨ (n.scale = 324 ∧ ∃ m e, n.IsShortest m e) := by
  rcases (Binary64.ofNumeral_eq_iff_covers hSome).mp hRounded
    with ⟨hNormal, hCovers⟩
  have hClosest := Rounding.isClosest_shortest hSome hFew hCovers
  constructor
  · intro hSame
    rcases Nat.lt_or_ge n.scale 324 with hWithin | hBehind
    · exact Or.inl hWithin
    right
    have hPlaces : n.scale ≠ 0 := by omega
    have hBelow := le_of_multiple_eq (hLast hPlaces) hSame
    have hAbove := Rounding.le_power_shortest hSome hCovers
    have hMost := Rounding.le_power_shortest_of_isNormal hNormal
    generalize (Rounding.ofParts m e).shortest = found
      at hSame hClosest hBelow hAbove hMost
    have hPower : found.2 = -(n.scale : Int) := by omega
    rw [hPower, size, mul_left_inj' (ten_zpow_pos _).ne',
      Nat.cast_inj] at hSame
    rw [hPower, hSame] at hClosest
    exact
      ⟨by omega, m, e,
        (isShortest_iff_isClosest hSome hPlaces hRounded).mpr
          hClosest⟩
  · rintro (hWithin | ⟨hPlaces, m', e', hShortest⟩)
    · exact
        Rounding.shortest_value_eq hSome hFew hCovers
          (Rounding.two_zpow_lt_ten_zpow hNormal hFew hCovers
            (by omega))
    · have hSame := hShortest.rounded
      rw [hRounded, Binary64.finite.injEq] at hSame
      rcases hSame with ⟨-, rfl, rfl⟩
      have hOther :=
        (isShortest_iff_isClosest hSome (by omega) hRounded).mp
          hShortest
      rcases hClosest.unique hOther with ⟨hMultiple, hPower⟩
      rw [hMultiple, hPower, size]

/-
  What is rounded to zero is kept only if it is zero: half of
  the smallest number is less than a unit of the 323rd place.
-/
theorem ratio_eq_zero_iff
    (hSpelled : IsSpelled n)
    (hRounded :
      Binary64.ofNumeral n =
        .finite n.negative 0 Binary64.minExponent) :
    0 = n.ratio ↔ n.IsKept := by
  have hLast (hPlaces : n.reduced.scale ≠ 0) :=
    digits_reduced_mod_ne_zero hSpelled hPlaces
  have hSize := size_reduced n
  rw [ratio, ← signed_zero n.negative, signed_eq_iff, ← hSize]
  rcases Nat.eq_zero_or_pos n.digits with hZero | hDigits
  · have hNone : n.reduced.digits = 0 :=
      Nat.le_zero.mp (hZero ▸ digits_reduced_le n)
    have hPlaces : n.reduced.scale = 0 := by
      by_contra hSome
      exact hLast hSome (by rw [hNone])
    rw [size, hNone, Nat.cast_zero, zero_mul]
    exact ⟨fun _ => Or.inl (by omega), fun _ => rfl⟩
  · have hOne : (1 : ℚ) ≤ n.reduced.digits := by
      exact_mod_cast digits_reduced_pos hDigits
    have hUnit := ten_zpow_pos (-(n.reduced.scale : Int))
    have hLeast : (10 : ℚ) ^ (-(n.reduced.scale : Int)) ≤
        n.reduced.size :=
      le_mul_of_one_le_left hUnit.le hOne
    have hHalf :=
      Binary64.le_of_ofRatio_eq_zero hDigits
        (Nat.pow_pos (by decide)) hRounded
    rw [Binary64.ratio_decimal, ← size, ← hSize]
      at hHalf
    constructor
    · intro hNone
      linarith
    · rintro (hWithin | ⟨hPlaces, m, e, hShortest⟩)
      · have hPow :
            (10 : ℚ) ^ (-323 : Int) ≤
              10 ^ (-(n.reduced.scale : Int)) :=
          zpow_le_zpow_right₀ (by norm_num) (by omega)
        have hSmall := Rounding.two_zpow_minExponent_lt
        generalize (10 : ℚ) ^ (-323 : Int) = place at hPow hSmall
        linarith
      · have hReduced := ofNumeral_reduced hDigits
        rw [hRounded] at hReduced
        exact
          absurd hShortest
            (not_isShortest_zero (by omega) hReduced)

end Numeral

/-
  What a number with at most fifteen digits is written as. It
  is the numeral it was read from if that is kept.
-/
theorem exists_ratioOf?_number_text
    {n : Numeral}
    (hSpelled : Numeral.IsSpelled n)
    (hFew : n.digits < 10 ^ 15) :
    ∃ q,
      ratioOf? (Binary64.ofNumeral n).text = some q ∧
        (q = n.ratio ↔ n.IsKept) := by
  rcases Binary64.ofRatio_cases n.negative hFew
      (Nat.pow_pos (by decide) : 0 < 10 ^ n.scale)
    with hZero | ⟨m, e, hSome, hDigits, hNumber⟩
  · have hRounded :
        Binary64.ofNumeral n =
          .finite n.negative 0 Binary64.minExponent := hZero
    have hText :
        (Binary64.finite n.negative 0 Binary64.minExponent).text =
          minusSign n.negative ++ positional 0 0 := rfl
    refine ⟨0, ?_, Numeral.ratio_eq_zero_iff hSpelled hRounded⟩
    rw [hRounded, hText, ratioOf?_positional, Nat.cast_zero,
      zero_mul, signed_zero]
  · have hRounded :
        Binary64.ofNumeral n = .finite n.negative m e := hNumber
    have hReduced := Numeral.ofNumeral_reduced hDigits
    rw [hRounded] at hReduced
    have hText :
        ratioOf? (Binary64.ofNumeral n).text =
          some
            (signed n.negative
              ((Rounding.ofParts m e).shortest.1
                * 10 ^ (Rounding.ofParts m e).shortest.2)) := by
      rw [hRounded, Binary64.text_finite _ _ hSome,
        ratioOf?_positional, Binary64.positional_multiple]
    refine ⟨_, hText, ?_⟩
    rw [Numeral.ratio, signed_eq_iff, ← Numeral.size_reduced n]
    exact
      Numeral.shortest_eq_size_iff hSome
        ((Numeral.digits_reduced_le n).trans_lt hFew)
        (Numeral.digits_reduced_mod_ne_zero hSpelled) hReduced

end SqlSelect
