import SqlSelect.Proofs.Number.Digits
import SqlSelect.Proofs.Number.Rounding

/-
  The shortest decimal text of a binary number. Whenever some
  decimal of at most fifteen digits is rounded to the number,
  the search finds a decimal in the interval of the number,
  so that its text is read back as the number.

  Main statements:
    * `Rounding.contains_ofParts_iff`
    * `Rounding.magnitude_bounds`
    * `Rounding.exists_nearestAt?`
    * `Rounding.covers_shortest`
    * `Binary64.ofNumeral_eq_iff_covers`
    * `Binary64.exists_numeral_pointedText`
-/

namespace SqlSelect

------------------------------------------------------------
-- Intervals
------------------------------------------------------------

section Within

variable {closed : Prop} [Decidable closed]
variable {low q q' high : ℚ}

/- The interval is without gaps. -/
theorem Within.of_le
    (hWithin : Within closed low q high)
    (hAbove : q ≤ q')
    (hBelow : q' < high) :
    Within closed low q' high := by
  rw [Within] at hWithin ⊢
  split_ifs at hWithin ⊢
  · exact ⟨hWithin.1.trans hAbove, hBelow.le⟩
  · exact ⟨hWithin.1.trans_le hAbove, hBelow⟩

theorem Within.of_ge
    (hWithin : Within closed low q high)
    (hAbove : low < q')
    (hBelow : q' ≤ q) :
    Within closed low q' high := by
  rw [Within] at hWithin ⊢
  split_ifs at hWithin ⊢
  · exact ⟨hAbove.le, hBelow.trans hWithin.2⟩
  · exact ⟨hAbove, hBelow.trans_lt hWithin.2⟩

theorem within_natCast
    (low q high : Nat) :
    Within closed (low : ℚ) q high ↔
      if closed then low ≤ q ∧ q ≤ high else low < q ∧ q < high := by
  rw [Within]
  simp only [Nat.cast_le, Nat.cast_lt]

end Within

------------------------------------------------------------
-- Powers of Ten
------------------------------------------------------------

theorem ten_zpow_pos
    (power : Int) :
    (0 : ℚ) < 10 ^ power :=
  zpow_pos (by norm_num) power

/- A power of ten as a ratio of two whole numbers. -/
theorem ten_zpow_mul
    (power : Int) :
    (10 : ℚ) ^ power * 10 ^ (-power).toNat = 10 ^ power.toNat := by
  rw [← zpow_natCast, ← zpow_natCast (10 : ℚ) power.toNat,
    ← zpow_add₀ (by norm_num)]
  congr 1
  omega

namespace Rounding

/- The unit of the interval, as a ratio. -/
def unit
    (r : Rounding) : ℚ :=
  r.num / r.den

/-
  The multiple of a power of ten is compared with the ends in
  whole numbers.
-/
theorem contains_iff
    {r : Rounding}
    (hDen : 0 < r.den)
    (multiple : Nat)
    (power : Int) :
    r.Contains multiple power ↔
      Within (r.closed = true) (r.low * r.unit)
        (multiple * 10 ^ power) (r.high * r.unit) := by
  have hDen' : (0 : ℚ) < r.den := by exact_mod_cast hDen
  have hScale : (0 : ℚ) < r.den * 10 ^ (-power).toNat := by
    positivity
  have hEnd (k : Nat) :
      (k : ℚ) * r.unit * (r.den * 10 ^ (-power).toNat) =
        ((k * (r.num * 10 ^ (-power).toNat) : Nat) : ℚ) := by
    rw [unit]
    push_cast
    field_simp
  have hMultiple :
      (multiple : ℚ) * 10 ^ power
          * (r.den * 10 ^ (-power).toNat) =
        ((multiple * 10 ^ power.toNat * r.den : Nat) : ℚ) := by
    push_cast
    rw [← ten_zpow_mul power]
    ring
  rw [← within_mul_iff hScale, hEnd, hEnd, hMultiple, within_natCast]
  rfl

------------------------------------------------------------
-- The Interval of a Number
------------------------------------------------------------

theorem den_ofParts_pos
    (m : Nat)
    (e : Int) :
    0 < (ofParts m e).den :=
  den_divTwoPow_pos 1 (2 - e) Nat.one_pos

theorem unit_ofParts
    (m : Nat)
    (e : Int) :
    (ofParts m e).unit = 2 ^ e / 4 := by
  have hRatio := ratio_divTwoPow 1 1 (2 - e)
  have hPow : (2 : ℚ) ^ (2 - e) = 4 / 2 ^ e := by
    rw [zpow_sub₀ (by norm_num)]
    norm_num
  rw [hPow] at hRatio
  have hPos := two_zpow_pos e
  rw [unit]
  calc
    ((ofParts m e).num : ℚ) / (ofParts m e).den =
        ((1 : Nat) : ℚ) / (1 : Nat) / (4 / 2 ^ e) := hRatio
    _ = 2 ^ e / 4 := by
      push_cast
      field_simp

theorem low_ofParts
    {m : Nat}
    (e : Int)
    (hPos : 0 < m) :
    ((ofParts m e).low : ℚ) = 4 * Binary64.lowEnd m e := by
  rw [Binary64.lowEnd]
  by_cases hPower : Binary64.IsPower m e
  · have hLow : (ofParts m e).low = 4 * m - 1 := if_pos hPower
    rw [if_pos hPower, hLow, Nat.cast_sub (by omega)]
    push_cast
    ring
  · have hLow : (ofParts m e).low = 4 * m - 2 := if_neg hPower
    rw [if_neg hPower, hLow, Nat.cast_sub (by omega)]
    push_cast
    ring

theorem closed_ofParts
    (m : Nat)
    (e : Int) :
    ((ofParts m e).closed = true) = (m % 2 = 0) := by
  simp [ofParts]

/- What the interval contains is what rounds to the number. -/
theorem contains_ofParts_iff
    {m : Nat}
    (e : Int)
    (hPos : 0 < m)
    (multiple : Nat)
    (power : Int) :
    (ofParts m e).Contains multiple power ↔
      Binary64.Covers m e (multiple * 10 ^ power) := by
  have hTwo := two_zpow_pos e
  have hHigh : ((ofParts m e).high : ℚ) = 4 * m + 2 := by
    simp [ofParts]
  have hLowEnd :
      4 * Binary64.lowEnd m e * (2 ^ e / 4) =
        Binary64.lowEnd m e * 2 ^ e := by
    ring
  have hHighEnd :
      (4 * (m : ℚ) + 2) * (2 ^ e / 4) = (m + 1 / 2) * 2 ^ e := by
    ring
  have hScaled :
      Within (m % 2 = 0) (Binary64.lowEnd m e * 2 ^ e)
          (multiple * 10 ^ power / 2 ^ e * 2 ^ e)
          ((m + 1 / 2) * 2 ^ e) ↔
        Binary64.Covers m e (multiple * 10 ^ power) :=
    within_mul_iff hTwo
  rw [contains_iff (den_ofParts_pos m e), unit_ofParts,
    low_ofParts e hPos, hHigh, ← hScaled,
    div_mul_cancel₀ _ hTwo.ne', hLowEnd, hHighEnd]
  simp only [Within, closed_ofParts]

------------------------------------------------------------
-- The Size of a Number
------------------------------------------------------------

/- The number that the interval is around. -/
def size
    (r : Rounding) : ℚ :=
  r.value * r.unit

theorem size_ofParts
    (m : Nat)
    (e : Int) :
    (ofParts m e).size = m * 2 ^ e := by
  have hValue : ((ofParts m e).value : ℚ) = 4 * m := by
    simp [ofParts]
  rw [size, unit_ofParts, hValue]
  ring

/- The places of a quotient bound what was divided. -/
theorem length_digitsOf_div_bounds
    {top den : Nat}
    (hDen : 0 < den)
    (hLarge : den ≤ top) :
    0 < (digitsOf (top / den)).length ∧
      10 ^ ((digitsOf (top / den)).length - 1) * den ≤ top ∧
      top < 10 ^ (digitsOf (top / den)).length * den := by
  refine ⟨length_digitsOf_pos _, ?_, ?_⟩
  · rw [← Nat.le_div_iff_mul_le hDen]
    exact pow_length_digitsOf_le (Nat.div_pos hLarge hDen)
  · rw [← Nat.div_lt_iff_lt_mul hDen]
    exact lt_pow_length_digitsOf _

/-
  The magnitude of a number is that of the first place of it,
  whether it is in front of the point or behind.
-/
theorem magnitude_bounds
    {r : Rounding}
    (hDen : 0 < r.den)
    (hTop : 0 < r.value * r.num) :
    10 ^ (r.magnitude - 1) ≤ r.size ∧
      r.size < 10 ^ r.magnitude := by
  have hDen' : (0 : ℚ) < r.den := by exact_mod_cast hDen
  have hTop' : (0 : ℚ) < (r.value * r.num : Nat) := by
    exact_mod_cast hTop
  have hSize : r.size = (r.value * r.num : Nat) / r.den := by
    rw [size, unit]
    push_cast
    ring
  rw [hSize, magnitude]
  generalize r.value * r.num = top at hTop hTop' ⊢
  by_cases hLarge : r.den ≤ top
  · simp only [if_pos hLarge]
    rcases length_digitsOf_div_bounds hDen hLarge
      with ⟨hSome, hLow, hHigh⟩
    generalize (digitsOf (top / r.den)).length = length
      at hLow hHigh hSome ⊢
    have hPred : (length : Int) - 1 = ((length - 1 : Nat) : Int) := by
      omega
    rw [hPred, zpow_natCast, zpow_natCast]
    constructor
    · rw [le_div_iff₀ hDen']
      exact_mod_cast hLow
    · rw [div_lt_iff₀ hDen']
      exact_mod_cast hHigh
  · simp only [if_neg hLarge]
    have hSmall : top ≤ r.den - 1 :=
      Nat.le_sub_one_of_lt (not_le.mp hLarge)
    rcases length_digitsOf_div_bounds hTop hSmall
      with ⟨hSome, hLow, hHigh⟩
    generalize (digitsOf ((r.den - 1) / top)).length = length
      at hLow hHigh hSome ⊢
    have hLow' : 10 ^ (length - 1) * top < r.den := by omega
    have hHigh' : r.den ≤ 10 ^ length * top := by omega
    have hNeg :
        1 - Int.ofNat length - 1 = -((length : Nat) : Int) := by
      simp only [Int.ofNat_eq_natCast]
      omega
    have hPred :
        1 - Int.ofNat length = -((length - 1 : Nat) : Int) := by
      simp only [Int.ofNat_eq_natCast]
      omega
    rw [hNeg, hPred, zpow_neg, zpow_neg, zpow_natCast,
      zpow_natCast]
    constructor
    · rw [inv_le_iff_one_le_mul₀ (by positivity),
        ← mul_div_right_comm, one_le_div₀ hDen', mul_comm]
      exact_mod_cast hHigh'
    · rw [lt_inv_comm₀ (by positivity) (by positivity), inv_div,
        lt_div_iff₀ hTop']
      exact_mod_cast hLow'

------------------------------------------------------------
-- The Search
------------------------------------------------------------

/- The multiple of the power next to the number, below it. -/
def floorAt
    (r : Rounding)
    (power : Int) : Nat :=
  r.value * (r.num * 10 ^ (-power).toNat)
    / (10 ^ power.toNat * r.den)

/- The number is nearer to its neighbour below than above. -/
def IsNearBelow
    (r : Rounding)
    (power : Int) : Prop :=
  2 * (r.value * (r.num * 10 ^ (-power).toNat)
    % (10 ^ power.toNat * r.den)) < 10 ^ power.toNat * r.den

/- There are two candidates, and the nearer one comes first. -/
theorem exists_candidates
    (r : Rounding)
    (power : Int) :
    ∃ first second,
      r.nearestAt? power =
          (if r.Contains first power then some first
            else if r.Contains second power then some second
            else none) ∧
        ((first = r.floorAt power ∧
            second = r.floorAt power + 1 ∧ r.IsNearBelow power) ∨
          (first = r.floorAt power + 1 ∧
            second = r.floorAt power ∧ ¬ r.IsNearBelow power)) := by
  by_cases hHalf : r.IsNearBelow power
  · refine ⟨r.floorAt power, r.floorAt power + 1, ?_, ?_⟩
    · rw [IsNearBelow] at hHalf
      rw [nearestAt?]
      simp only [Nat.pow_eq, if_pos hHalf, if_true, floorAt]
      rfl
    · exact Or.inl ⟨rfl, rfl, hHalf⟩
  · refine ⟨r.floorAt power + 1, r.floorAt power, ?_, ?_⟩
    · rw [IsNearBelow] at hHalf
      rw [nearestAt?]
      simp only [Nat.pow_eq, if_neg hHalf, Nat.add_eq_left,
        one_ne_zero, if_false, floorAt]
      rfl
    · exact Or.inr ⟨rfl, rfl, hHalf⟩

theorem contains_of_nearestAt?
    {r : Rounding}
    {power : Int}
    {multiple : Nat}
    (hFound : r.nearestAt? power = some multiple) :
    r.Contains multiple power := by
  rcases exists_candidates r power with ⟨first, second, hEq, -⟩
  rw [hEq] at hFound
  split_ifs at hFound with hFirst hSecond
  · cases hFound
    exact hFirst
  · cases hFound
    exact hSecond

theorem exists_nearestAt?_of_floorAt
    {r : Rounding}
    {power : Int}
    (hSome :
      r.Contains (r.floorAt power) power ∨
        r.Contains (r.floorAt power + 1) power) :
    ∃ multiple, r.nearestAt? power = some multiple := by
  rcases exists_candidates r power
    with ⟨first, second, hEq, hBoth⟩
  have hEither :
      r.Contains first power ∨ r.Contains second power := by
    rcases hBoth with ⟨hFirst, hSecond, -⟩ | ⟨hFirst, hSecond, -⟩
    · rw [hFirst, hSecond]
      exact hSome
    · rw [hFirst, hSecond]
      exact hSome.symm
  rw [hEq]
  by_cases hFirst : r.Contains first power
  · exact ⟨first, if_pos hFirst⟩
  · rw [if_neg hFirst]
    exact ⟨second, if_pos (hEither.resolve_left hFirst)⟩

/-
  The number and the multiples of a power are compared in
  whole numbers, after multiplying with the denominators.
-/
theorem size_mul
    {r : Rounding}
    (hDen : 0 < r.den)
    (power : Int) :
    r.size * (r.den * 10 ^ (-power).toNat) =
      ((r.value * (r.num * 10 ^ (-power).toNat) : Nat) : ℚ) := by
  have hDen' : (0 : ℚ) < r.den := by exact_mod_cast hDen
  rw [size, unit]
  push_cast
  field_simp

theorem multiple_mul
    (r : Rounding)
    (multiple : Nat)
    (power : Int) :
    (multiple : ℚ) * 10 ^ power * (r.den * 10 ^ (-power).toNat) =
      ((multiple * (10 ^ power.toNat * r.den) : Nat) : ℚ) := by
  push_cast
  rw [← ten_zpow_mul power]
  ring

/- The candidates are the neighbours of the number. -/
theorem floorAt_bounds
    {r : Rounding}
    (hDen : 0 < r.den)
    (power : Int) :
    (r.floorAt power : ℚ) * 10 ^ power ≤ r.size ∧
      r.size < ((r.floorAt power + 1 : Nat) : ℚ) * 10 ^ power := by
  have hDen' : (0 : ℚ) < r.den := by exact_mod_cast hDen
  have hGrid : 0 < 10 ^ power.toNat * r.den :=
    Nat.mul_pos (Nat.pow_pos (by decide)) hDen
  have hLow :
      r.floorAt power * (10 ^ power.toNat * r.den) ≤
        r.value * (r.num * 10 ^ (-power).toNat) :=
    Nat.div_mul_le_self _ _
  have hHigh :
      r.value * (r.num * 10 ^ (-power).toNat) <
        (r.floorAt power + 1) * (10 ^ power.toNat * r.den) := by
    rw [← Nat.div_lt_iff_lt_mul hGrid]
    exact Nat.lt_succ_self _
  have hScale : (0 : ℚ) < r.den * 10 ^ (-power).toNat := by
    positivity
  constructor
  · rw [← mul_le_mul_iff_left₀ hScale, multiple_mul, size_mul hDen]
    exact_mod_cast hLow
  · rw [← mul_lt_mul_iff_left₀ hScale, multiple_mul, size_mul hDen]
    exact_mod_cast hHigh

theorem isNearBelow_iff
    {r : Rounding}
    (hDen : 0 < r.den)
    (power : Int) :
    r.IsNearBelow power ↔
      2 * (r.size - r.floorAt power * 10 ^ power) < 10 ^ power := by
  have hDen' : (0 : ℚ) < r.den := by exact_mod_cast hDen
  have hScale : (0 : ℚ) < r.den * 10 ^ (-power).toNat := by
    positivity
  have hSize := size_mul hDen power
  have hFloor := multiple_mul r (r.floorAt power) power
  have hOne := multiple_mul r 1 power
  rw [Nat.cast_one, one_mul, one_mul] at hOne
  have hParts :=
    Nat.div_add_mod (r.value * (r.num * 10 ^ (-power).toNat))
      (10 ^ power.toNat * r.den)
  have hRest :
      ((r.value * (r.num * 10 ^ (-power).toNat)
          % (10 ^ power.toNat * r.den) : Nat) : ℚ) =
        (r.size - r.floorAt power * 10 ^ power)
          * (r.den * 10 ^ (-power).toNat) := by
    rw [sub_mul, hSize, hFloor, eq_sub_iff_add_eq, floorAt,
      mul_comm (_ / _), add_comm]
    exact_mod_cast hParts
  rw [IsNearBelow, ← Nat.cast_lt (α := ℚ), Nat.cast_mul, hRest,
    ← hOne, ← mul_assoc]
  exact mul_lt_mul_iff_left₀ hScale

/-
  Whenever the interval contains a multiple of the power, one
  is found: the interval holds what lies between the multiple
  and the number.
-/
theorem exists_nearestAt?
    {m : Nat}
    {e power : Int}
    {multiple : Nat}
    (hPos : 0 < m)
    (hContains : (ofParts m e).Contains multiple power) :
    ∃ found, (ofParts m e).nearestAt? power = some found := by
  rcases floorAt_bounds (den_ofParts_pos m e) power
    with ⟨hLow, hHigh⟩
  apply exists_nearestAt?_of_floorAt
  generalize (ofParts m e).floorAt power = floor at hLow hHigh ⊢
  rw [size_ofParts] at hLow hHigh
  have hTen := ten_zpow_pos power
  have hTwo := two_zpow_pos e
  rw [contains_ofParts_iff e hPos,
    contains_ofParts_iff e hPos]
  rw [contains_ofParts_iff e hPos] at hContains
  rw [Binary64.Covers] at hContains ⊢
  rw [Binary64.Covers]
  by_cases hBelow : multiple ≤ floor
  · left
    have hCast : (multiple : ℚ) ≤ floor := by
      exact_mod_cast hBelow
    apply hContains.of_le
    · gcongr
    · rw [div_lt_iff₀ hTwo]
      linarith
  · right
    have hNext : floor + 1 ≤ multiple := by omega
    have hCast : ((floor + 1 : Nat) : ℚ) ≤ multiple := by
      exact_mod_cast hNext
    apply hContains.of_ge
    · have hEnd := (Binary64.lowEnd_bounds m e).2
      have hScaled : Binary64.lowEnd m e * 2 ^ e < m * 2 ^ e := by
        gcongr
      rw [lt_div_iff₀ hTwo]
      linarith
    · gcongr

/- Where none is found the interval holds no multiple. -/
theorem not_contains_of_nearestAt?
    {m multiple : Nat}
    {e power : Int}
    (hPos : 0 < m)
    (hNone : (ofParts m e).nearestAt? power = none) :
    ¬ (ofParts m e).Contains multiple power := by
  intro hContains
  rcases exists_nearestAt? hPos hContains with ⟨found, hFound⟩
  rw [hNone] at hFound
  exact absurd hFound (by simp)

/-
  The search goes down the powers and stops where a multiple
  is found, which it is at the latest at a power that has one
  in the interval.
-/
theorem nearestAt?_search
    {m : Nat}
    {e : Int}
    (hPos : 0 < m)
    {steps fewer multiple : Nat}
    {power : Int}
    (hFewer : fewer ≤ steps)
    (hContains :
      (ofParts m e).Contains multiple (power - fewer)) :
    let found := (ofParts m e).search steps power
    (ofParts m e).nearestAt? found.2 = some found.1 := by
  induction steps generalizing power fewer with
  | zero =>
      have hNone : fewer = 0 := by omega
      rw [hNone, Nat.cast_zero, sub_zero] at hContains
      rcases exists_nearestAt? hPos hContains
        with ⟨found, hFound⟩
      rw [search]
      simp only [hFound, Option.getD_some]
  | succ steps ih =>
      rw [search]
      cases hFound : (ofParts m e).nearestAt? power with
      | some found => exact hFound
      | none =>
          have hSome : fewer ≠ 0 := by
            intro hZero
            rw [hZero, Nat.cast_zero, sub_zero] at hContains
            exact not_contains_of_nearestAt? hPos hFound hContains
          have hPower :
              power - fewer = power - 1 - (fewer - 1 : Nat) := by
            omega
          rw [hPower] at hContains
          exact ih (by omega) hContains

/- What the interval holds is about as large as the number. -/
theorem size_bounds_of_covers
    {m : Nat}
    {e : Int}
    {q : ℚ}
    (hPos : 0 < m)
    (hCovers : Binary64.Covers m e q) :
    (m : ℚ) * 2 ^ e ≤ 2 * q ∧ q ≤ 2 * (m * 2 ^ e) := by
  have hTwo := two_zpow_pos e
  have hOne : (1 : ℚ) ≤ m := by exact_mod_cast hPos
  have hEnd := (Binary64.lowEnd_bounds m e).1
  rcases hCovers.le with ⟨hLow, hHigh⟩
  have hLow' : (m : ℚ) / 2 ≤ q / 2 ^ e := by linarith
  have hHigh' : q / 2 ^ e ≤ 2 * m := by linarith
  rw [le_div_iff₀ hTwo] at hLow'
  rw [div_le_iff₀ hTwo] at hHigh'
  constructor <;> linarith

theorem two_zpow_mul_pos
    {m : Nat}
    (e : Int)
    (hPos : 0 < m) :
    (0 : ℚ) < m * 2 ^ e :=
  mul_pos (by exact_mod_cast hPos) (two_zpow_pos e)

/- It holds no decimal without digits. -/
theorem one_le_of_covers
    {m multiple : Nat}
    {e power : Int}
    (hPos : 0 < m)
    (hCovers : Binary64.Covers m e (multiple * 10 ^ power)) :
    (1 : ℚ) ≤ multiple := by
  have hSome : multiple ≠ 0 := by
    rintro rfl
    have hAbove := (size_bounds_of_covers hPos hCovers).1
    rw [Nat.cast_zero, zero_mul, mul_zero] at hAbove
    exact absurd hAbove (two_zpow_mul_pos e hPos).not_ge
  exact_mod_cast Nat.pos_of_ne_zero hSome

theorem top_ofParts_pos
    {m : Nat}
    (e : Int)
    (hPos : 0 < m) :
    0 < (ofParts m e).value * (ofParts m e).num :=
  Nat.mul_pos (Nat.mul_pos (by decide) hPos)
    (Nat.mul_pos Nat.one_pos (Nat.pow_pos (by decide)))

/- A power above the magnitude is too large for the interval. -/
theorem le_magnitude_of_covers
    {m multiple : Nat}
    {e power : Int}
    (hPos : 0 < m)
    (hCovers : Binary64.Covers m e (multiple * 10 ^ power)) :
    power ≤ (ofParts m e).magnitude := by
  have hHigh :=
    (magnitude_bounds (den_ofParts_pos m e)
      (top_ofParts_pos e hPos)).2
  have hBelow := (size_bounds_of_covers hPos hCovers).2
  rw [size_ofParts] at hHigh
  have hTen := ten_zpow_pos power
  have hOne := one_le_of_covers hPos hCovers
  have hLeast : (10 : ℚ) ^ power ≤ multiple * 10 ^ power :=
    le_mul_of_one_le_left hTen.le hOne
  by_contra hMore
  have hPow :
      (10 : ℚ) ^ ((ofParts m e).magnitude + 1) ≤ 10 ^ power :=
    zpow_le_zpow_right₀ (by norm_num) (by omega)
  rw [zpow_add_one₀ (by norm_num)] at hPow
  linarith [ten_zpow_pos (ofParts m e).magnitude]

/-
  A decimal of at most fifteen digits that is rounded to the
  number is among the powers that are searched.
-/
theorem nearestAt?_shortest
    {m digits scale : Nat}
    {e : Int}
    (hPos : 0 < m)
    (hFew : digits < 10 ^ 15)
    (hCovers :
      Binary64.Covers m e (digits * 10 ^ (-(scale : Int)))) :
    let found := (ofParts m e).shortest
    (ofParts m e).nearestAt? found.2 = some found.1 := by
  have hLow :=
    (magnitude_bounds (den_ofParts_pos m e)
      (top_ofParts_pos e hPos)).1
  have hAbove := (size_bounds_of_covers hPos hCovers).1
  have hUpper := le_magnitude_of_covers hPos hCovers
  rw [size_ofParts] at hLow
  rw [shortest]
  rw [← contains_ofParts_iff e hPos] at hCovers
  generalize (ofParts m e).magnitude = top at hLow hUpper ⊢
  have hUnit := ten_zpow_pos (-(scale : Int))
  have hTen := ten_zpow_pos top
  have hPred : (10 : ℚ) ^ (top - 1) = 10 ^ top / 10 := by
    rw [zpow_sub_one₀ (by norm_num), div_eq_mul_inv]
  rw [hPred] at hLow
  have hLower : top + scale ≤ 17 := by
    by_contra hMore
    have hPow : (10 : ℚ) ^ (-(scale : Int)) ≤ 10 ^ (top - 18) :=
      zpow_le_zpow_right₀ (by norm_num) (by omega)
    rw [zpow_sub₀ (by norm_num)] at hPow
    have hCast : (digits : ℚ) < 10 ^ 15 := by
      exact_mod_cast hFew
    have hMost :
        (digits : ℚ) * 10 ^ (-(scale : Int)) <
          10 ^ top / 1000 := by
      calc
        (digits : ℚ) * 10 ^ (-(scale : Int)) <
            10 ^ 15 * 10 ^ (-(scale : Int)) := by
          gcongr
        _ ≤ 10 ^ 15 * (10 ^ top / 10 ^ (18 : Int)) := by
          gcongr
        _ = 10 ^ top / 1000 := by
          norm_num
          ring
    linarith
  have hFewer :
      top - ((top + scale).toNat : Int) = -(scale : Int) := by
    omega
  rw [← hFewer] at hCovers
  exact nearestAt?_search hPos (by omega) hCovers

/- The decimal that is found is rounded to the number. -/
theorem covers_shortest
    {m digits scale : Nat}
    {e : Int}
    (hPos : 0 < m)
    (hFew : digits < 10 ^ 15)
    (hCovers :
      Binary64.Covers m e (digits * 10 ^ (-(scale : Int)))) :
    let found := (ofParts m e).shortest
    Binary64.Covers m e (found.1 * 10 ^ found.2) :=
  (contains_ofParts_iff e hPos _ _).mp
    (contains_of_nearestAt? (nearestAt?_shortest hPos hFew hCovers))

end Rounding

------------------------------------------------------------
-- Texts
------------------------------------------------------------

namespace Binary64

/-
  A ratio of a number of at most fifteen digits is rounded to
  zero or to a positive number, and never is too large.
-/
theorem ofRatio_cases
    (negative : Bool)
    {num den : Nat}
    (hFew : num < 10 ^ 15)
    (hDen : 0 < den) :
    ofRatio negative num den = .finite negative 0 minExponent ∨
      ∃ m e,
        0 < m ∧ 0 < num ∧
          ofRatio negative num den = .finite negative m e := by
  rcases Nat.eq_zero_or_pos num with hZero | hNum
  · rw [ofRatio, if_pos hZero]
    exact Or.inl rfl
  rcases exists_lastPlace_nearest hNum hDen
    with ⟨place, r, hPlace, hNear⟩
  have hSmall : place + 1 ≤ maxExponent := by
    have hMin := hPlace.min
    rcases hPlace.full with hLeast | hFull
    · rw [hLeast]
      decide
    · by_contra hLarge
      have hPow : (2 : ℚ) ^ (52 : Int) ≤ 2 ^ (place + 52) := by
        apply zpow_le_zpow_right₀ (by norm_num)
        rw [maxExponent] at hLarge
        omega
      have hNumber : (num : ℚ) / den ≤ num :=
        div_le_self (Nat.cast_nonneg num)
          (by exact_mod_cast hDen)
      have hLess : num < 2 ^ 52 := by omega
      have hCast : (num : ℚ) < 2 ^ (52 : Int) := by
        exact_mod_cast hLess
      linarith
  rw [ofRatio_eq negative hNum hDen hPlace hNear]
  by_cases hCarry : r = 2 ^ 53
  · rw [if_pos hCarry, if_neg (by omega)]
    exact Or.inr ⟨_, _, by decide, hNum, rfl⟩
  rw [if_neg hCarry, if_neg (by omega)]
  rcases Nat.eq_zero_or_pos r with hNone | hSome
  · have hFull := full_of_nearest hPlace hNear
    have hLeast : place = minExponent :=
      hFull.resolve_right (by omega)
    rw [hNone, hLeast]
    exact Or.inl rfl
  · exact Or.inr ⟨r, place, hSome, hNum, rfl⟩

/- The ratios that are rounded to a number that is not zero. -/
theorem ofRatio_eq_iff_covers
    (negative : Bool)
    (num : Nat)
    {den m : Nat}
    {e : Int}
    (hDen : 0 < den)
    (hSome : 0 < m) :
    ofRatio negative num den = .finite negative m e ↔
      IsNormal m e ∧ Covers m e (num / den) := by
  rcases Nat.eq_zero_or_pos num with rfl | hNum
  · rw [ofRatio, if_pos rfl, Nat.cast_zero, zero_div]
    constructor
    · intro hZero
      exact absurd (Binary64.finite.inj hZero).2.1 hSome.ne
    · rintro ⟨-, hCovers⟩
      have hSize := (Rounding.size_bounds_of_covers hSome hCovers).1
      linarith [Rounding.two_zpow_mul_pos e hSome]
  · exact ofRatio_eq_finite_iff negative hNum hDen hSome

/- A decimal as a ratio. -/
theorem ratio_decimal
    (digits scale : Nat) :
    (digits : ℚ) / (10 ^ scale : Nat) =
      digits * 10 ^ (-(scale : Int)) := by
  rw [zpow_neg, zpow_natCast, div_eq_mul_inv]
  push_cast
  rfl

/- The decimals that are rounded to it. -/
theorem ofDecimal_eq_iff_covers
    (negative : Bool)
    (digits scale : Nat)
    {m : Nat}
    {e : Int}
    (hSome : 0 < m) :
    ofRatio negative digits (10 ^ scale) = .finite negative m e ↔
      IsNormal m e ∧
        Covers m e (digits * 10 ^ (-(scale : Int))) := by
  rw [ofRatio_eq_iff_covers negative digits
      (Nat.pow_pos (by decide)) hSome,
    ratio_decimal]

theorem ofNumeral_eq_iff_covers
    {n : Numeral}
    {m : Nat}
    {e : Int}
    (hSome : 0 < m) :
    ofNumeral n = .finite n.negative m e ↔
      IsNormal m e ∧
        Covers m e (n.digits * 10 ^ (-(n.scale : Int))) :=
  ofDecimal_eq_iff_covers n.negative n.digits n.scale hSome

/- The text of a number that is not zero. -/
theorem text_finite
    (negative : Bool)
    {m : Nat}
    (e : Int)
    (hPos : 0 < m) :
    (finite negative m e).text =
      minusSign negative ++
        positional
          ((Rounding.ofParts m e).shortest.1
            * 10 ^ (Rounding.ofParts m e).shortest.2.toNat)
          (-(Rounding.ofParts m e).shortest.2).toNat := by
  rw [text]
  · rfl
  · exact hPos.ne'

/-
  A number whose text has some places, or none, is written
  as a numeral of the same value, with one place at least.
-/
theorem exists_body_of_text
    {x : Binary64}
    {negative : Bool}
    {digits scale : Nat}
    (hText : x.text = minusSign negative ++ positional digits scale) :
    ∃ n : Numeral,
      x.pointedText = minusSign n.negative ++ n.body ∧
        Numeral.IsSpelled n ∧ n.negative = negative ∧
        n.scale = max 1 scale ∧
        (n.digits : ℚ) * 10 ^ (-(n.scale : Int)) =
          digits * 10 ^ (-(scale : Int)) := by
  rw [pointedText, hText]
  by_cases hPlaces : scale = 0
  · have hAll :
        (minusSign negative ++ digitsOf digits).all
          (fun c => c.isDigit || c == '-') = true := by
      rw [List.all_append, Bool.and_eq_true]
      constructor
      · cases negative <;> decide
      · rw [List.all_eq_true]
        intro c hMem
        rw [isDigit_of_mem (isDigits_digitsOf digits) hMem]
        rfl
    refine
      ⟨⟨negative, digitsOf digits, ['0']⟩, ?_,
        ⟨isDigits_digitsOf digits, rfl, Or.inr (by simp)⟩,
        rfl, by rw [hPlaces]; rfl, ?_⟩
    · rw [hPlaces, Numeral.positional_zero]
      simp only [if_pos hAll]
      rw [List.append_assoc]
      rfl
    · have hValue : digitsValue ['0'] = 0 := rfl
      rw [hPlaces, Numeral.digits, Numeral.scale,
        digitsValue_append, digitsValue_digitsOf, hValue]
      norm_num
      ring
  · rcases Numeral.exists_positional negative digits hPlaces
      with ⟨n, hBody, hSpelled, hNegative, hDigits, hScale⟩
    have hPoint :
        (minusSign negative ++ n.body).all
          (fun c => c.isDigit || c == '-') = false := by
      rw [List.all_eq_false]
      exact ⟨'.', by simp [Numeral.body], by decide⟩
    refine ⟨n, ?_, hSpelled, hNegative, ?_, ?_⟩
    · rw [hBody, hNegative]
      simp only [hPoint, Bool.false_eq_true, if_false]
    · rw [hScale, max_eq_right (Nat.pos_of_ne_zero hPlaces)]
    · rw [hDigits, hScale]

/- The multiple of a power, as digits and places. -/
theorem positional_multiple
    (multiple : Nat)
    (power : Int) :
    ((multiple * 10 ^ power.toNat : Nat) : ℚ)
        * 10 ^ (-((-power).toNat : Int)) =
      multiple * 10 ^ power := by
  have hPos : (0 : ℚ) < 10 ^ (-power).toNat := by positivity
  push_cast
  rw [zpow_neg, zpow_natCast, ← ten_zpow_mul power]
  field_simp

/-
  The number of a numeral with at most fifteen digits is read
  back from its text with a point.
-/
theorem exists_numeral_pointedText
    {source : Numeral}
    (hFew : source.digits < 10 ^ 15) :
    ∃ n : Numeral,
      (ofNumeral source).pointedText =
          minusSign n.negative ++ n.body ∧
        Numeral.IsSpelled n ∧
        ofNumeral n = ofNumeral source := by
  rcases ofRatio_cases source.negative hFew
      (Nat.pow_pos (by decide) : 0 < 10 ^ source.scale)
    with hZero | ⟨m, e, hPos, -, hSome⟩
  · have hNumber :
        ofNumeral source =
          .finite source.negative 0 minExponent := hZero
    have hText :
        (finite source.negative 0 minExponent).text =
          minusSign source.negative ++ positional 0 0 := rfl
    rcases exists_body_of_text hText
      with ⟨n, hPointed, hSpelled, hNegative, -, hValue⟩
    rw [hNumber]
    refine ⟨n, hPointed, hSpelled, ?_⟩
    have hNone : n.digits = 0 := by
      have hTen := ten_zpow_pos (-(n.scale : Int))
      rw [Nat.cast_zero, zero_mul, mul_eq_zero] at hValue
      exact_mod_cast hValue.resolve_right hTen.ne'
    rw [ofNumeral, hNone, hNegative, ofRatio, if_pos rfl]
  · have hNumber :
        ofNumeral source = .finite source.negative m e := hSome
    rcases (ofNumeral_eq_iff_covers hPos).mp hNumber
      with ⟨hNormal, hCovers⟩
    have hShortest := Rounding.covers_shortest hPos hFew hCovers
    rcases exists_body_of_text (text_finite source.negative e hPos)
      with ⟨n, hPointed, hSpelled, hNegative, -, hValue⟩
    rw [positional_multiple] at hValue
    rw [hNumber]
    refine ⟨n, hPointed, hSpelled, ?_⟩
    simp only [← hValue] at hShortest
    rw [← hNegative]
    exact (ofNumeral_eq_iff_covers hPos).mpr ⟨hNormal, hShortest⟩

end Binary64

end SqlSelect
