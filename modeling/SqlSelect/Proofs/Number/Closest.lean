import SqlSelect.Proofs.Number.Shortest

/-
  The decimal that a binary number is written as. No decimal
  of fewer places is rounded to the number, and of those of
  as many places none is nearer to it. A decimal that was
  read is written again where decimals of its places stand
  further apart than the binary numbers.

  Main statements:
    * `Binary64.IsClosest`
    * `Rounding.isClosest_shortest`
    * `Rounding.shortest_lt`
    * `Rounding.shortest_value_eq`
    * `Rounding.shortest_value_eq_of_whole`
    * `Rounding.le_power_shortest_of_isNormal`
-/

namespace SqlSelect

------------------------------------------------------------
-- Intervals
------------------------------------------------------------

namespace Binary64

section Covers

variable {m : Nat} {e : Int} {q q' : ℚ}

/- What lies between the number and what rounds to it. -/
theorem Covers.of_le
    (hCovers : Covers m e q)
    (hAbove : q ≤ q')
    (hBelow : q' ≤ m * 2 ^ e) :
    Covers m e q' := by
  have hTwo := two_zpow_pos e
  refine Within.of_le hCovers (by gcongr) ?_
  rw [div_lt_iff₀ hTwo]
  linarith

theorem Covers.of_ge
    (hCovers : Covers m e q)
    (hAbove : m * 2 ^ e ≤ q')
    (hBelow : q' ≤ q) :
    Covers m e q' := by
  have hTwo := two_zpow_pos e
  have hEnd := (lowEnd_bounds m e).2
  have hScaled : lowEnd m e * 2 ^ e < m * 2 ^ e := by
    gcongr
  refine Within.of_ge hCovers ?_ (by gcongr)
  rw [lt_div_iff₀ hTwo]
  linarith

/- The interval has no gaps. -/
theorem covers_between
    {low high : ℚ}
    (hLow : Covers m e low)
    (hHigh : Covers m e high)
    (hAbove : low ≤ q)
    (hBelow : q ≤ high) :
    Covers m e q := by
  rcases le_total q (m * 2 ^ e) with hLess | hMore
  · exact hLow.of_le hAbove hLess
  · exact hHigh.of_ge hMore hBelow

/- The interval is at most one last place wide. -/
theorem sub_le_of_covers
    (hFirst : Covers m e q)
    (hSecond : Covers m e q') :
    q - q' ≤ 2 ^ e := by
  have hTwo := two_zpow_pos e
  have hHigh := hFirst.le.2
  have hLow := (lowEnd_bounds m e).1.trans hSecond.le.1
  rw [div_le_iff₀ hTwo] at hHigh
  rw [le_div_iff₀ hTwo] at hLow
  linarith

end Covers

------------------------------------------------------------
-- The Closest Decimal
------------------------------------------------------------

/- How far a ratio is away from a number. -/
def gap
    (m : Nat)
    (e : Int)
    (q : ℚ) : ℚ :=
  |q - m * 2 ^ e|

theorem gap_of_le
    {m : Nat}
    {e : Int}
    {q : ℚ}
    (hBelow : q ≤ m * 2 ^ e) :
    gap m e q = m * 2 ^ e - q := by
  rw [gap, abs_sub_comm, abs_of_nonneg (by linarith)]

theorem gap_of_ge
    {m : Nat}
    {e : Int}
    {q : ℚ}
    (hAbove : m * 2 ^ e ≤ q) :
    gap m e q = q - m * 2 ^ e :=
  abs_of_nonneg (by linarith)

/-
  The first multiple of a power of ten is nearer to the number
  than the second, or as near and not smaller.
-/
def IsPreferred
    (m : Nat)
    (e power : Int)
    (multiple other : Nat) : Prop :=
  gap m e (multiple * 10 ^ power) < gap m e (other * 10 ^ power) ∨
    (gap m e (multiple * 10 ^ power) = gap m e (other * 10 ^ power) ∧
      other ≤ multiple)

/- Below the number the larger multiple is nearer. -/
theorem isPreferred_of_le
    {m multiple other : Nat}
    {e power : Int}
    (hBelow : (multiple : ℚ) * 10 ^ power ≤ m * 2 ^ e)
    (hLess : other ≤ multiple) :
    IsPreferred m e power multiple other := by
  have hTen := ten_zpow_pos power
  have hCast : (other : ℚ) ≤ multiple := by exact_mod_cast hLess
  have hMul : (other : ℚ) * 10 ^ power ≤ multiple * 10 ^ power := by
    gcongr
  have hGap :
      gap m e (multiple * 10 ^ power) ≤
        gap m e (other * 10 ^ power) := by
    rw [gap_of_le hBelow, gap_of_le (hMul.trans hBelow)]
    linarith
  rcases hGap.lt_or_eq with hLt | hEq
  · exact Or.inl hLt
  · exact Or.inr ⟨hEq, hLess⟩

/- Above the number the smaller one is. -/
theorem isPreferred_of_ge
    {m multiple other : Nat}
    {e power : Int}
    (hAbove : (m : ℚ) * 2 ^ e ≤ multiple * 10 ^ power)
    (hMore : multiple ≤ other) :
    IsPreferred m e power multiple other := by
  rcases hMore.eq_or_lt with hEq | hLess
  · rw [hEq]
    exact Or.inr ⟨rfl, le_rfl⟩
  · have hTen := ten_zpow_pos power
    have hCast : (multiple : ℚ) < other := by exact_mod_cast hLess
    have hMul : (multiple : ℚ) * 10 ^ power < other * 10 ^ power := by
      gcongr
    left
    rw [gap_of_ge hAbove, gap_of_ge (hAbove.trans hMul.le)]
    linarith

/-
  The multiple of a power of ten is rounded to the number, no
  multiple of a greater power is, and of those of this power
  none is nearer; of two equally near ones it is the larger.
-/
structure IsClosest
    (m : Nat)
    (e : Int)
    (multiple : Nat)
    (power : Int) : Prop where
  covers : Covers m e (multiple * 10 ^ power)
  fewest :
    ∀ (other : Nat) (more : Int),
      power < more → ¬ Covers m e (other * 10 ^ more)
  nearest :
    ∀ other : Nat,
      Covers m e (other * 10 ^ power) →
        IsPreferred m e power multiple other

/- There is one such decimal. -/
theorem IsClosest.unique
    {m a b : Nat}
    {e p q : Int}
    (hFirst : IsClosest m e a p)
    (hSecond : IsClosest m e b q) :
    a = b ∧ p = q := by
  have hPower : p = q := by
    rcases lt_trichotomy p q with hLess | hEq | hMore
    · exact absurd hSecond.covers (hFirst.fewest b q hLess)
    · exact hEq
    · exact absurd hFirst.covers (hSecond.fewest a p hMore)
  subst hPower
  refine ⟨?_, rfl⟩
  rcases hFirst.nearest b hSecond.covers with hLess | ⟨hEq, hLarger⟩
  · rcases hSecond.nearest a hFirst.covers with hMore | ⟨hEq, -⟩
    · exact absurd hMore hLess.not_gt
    · exact absurd hEq hLess.ne'
  · rcases hSecond.nearest a hFirst.covers with hMore | ⟨-, hLarger'⟩
    · exact absurd hEq hMore.ne'
    · exact Nat.le_antisymm hLarger' hLarger

end Binary64

namespace Rounding

variable {m multiple : Nat} {e power : Int}

------------------------------------------------------------
-- No Fewer Places
------------------------------------------------------------

/- The search does not pass by a power that has a multiple. -/
theorem le_power_search
    (hPos : 0 < m)
    {steps : Nat}
    {first : Int}
    (hBelow : power ≤ first)
    (hContains : (ofParts m e).Contains multiple power) :
    power ≤ ((ofParts m e).search steps first).2 := by
  induction steps generalizing first with
  | zero => exact hBelow
  | succ steps ih =>
      rw [search]
      cases hFound : (ofParts m e).nearestAt? first with
      | some found => exact hBelow
      | none =>
          have hOther : power ≠ first := by
            rintro rfl
            exact not_contains_of_nearestAt? hPos hFound hContains
          exact ih (by omega)

/- No multiple of a greater power is rounded to the number. -/
theorem le_power_shortest
    (hPos : 0 < m)
    (hCovers : Binary64.Covers m e (multiple * 10 ^ power)) :
    power ≤ (ofParts m e).shortest.2 := by
  exact
    le_power_search hPos (le_magnitude_of_covers hPos hCovers)
      ((contains_ofParts_iff e hPos multiple power).mpr hCovers)

------------------------------------------------------------
-- None Nearer
------------------------------------------------------------

/-
  Of the neighbours of the number the nearer one is taken,
  unless it does not round to the number; then nothing behind
  it does either.
-/
theorem isPreferred_of_nearestAt?
    (hPos : 0 < m)
    (hFound : (ofParts m e).nearestAt? power = some multiple)
    {other : Nat}
    (hCovers : Binary64.Covers m e (other * 10 ^ power)) :
    Binary64.IsPreferred m e power multiple other := by
  rcases floorAt_bounds (den_ofParts_pos m e) power
    with ⟨hLow, hHigh⟩
  have hHalf := isNearBelow_iff (den_ofParts_pos m e) power
  rcases exists_candidates (ofParts m e) power
    with ⟨first, second, hEq, hBoth⟩
  rw [hEq] at hFound
  generalize (ofParts m e).floorAt power = floor
    at hLow hHigh hHalf hBoth
  rw [size_ofParts] at hLow hHigh hHalf
  have hTen := ten_zpow_pos power
  have hBelow (hLess : other ≤ floor) :
      (other : ℚ) * 10 ^ power ≤ floor * 10 ^ power := by
    gcongr
  have hAbove (hMore : floor + 1 ≤ other) :
      ((floor + 1 : Nat) : ℚ) * 10 ^ power ≤ other * 10 ^ power := by
    gcongr
  split_ifs at hFound with hFirst hSecond
  · -- The nearer neighbour is taken.
    cases hFound
    rcases hBoth with ⟨rfl, -, hNear⟩ | ⟨rfl, -, hFar⟩
    · rcases Nat.lt_or_ge multiple other with hMore | hLess
      · left
        have hBehind := hAbove hMore
        rw [Binary64.gap_of_le hLow,
          Binary64.gap_of_ge (hHigh.le.trans hBehind)]
        have hNear' := hHalf.mp hNear
        push_cast at hBehind
        linarith
      · exact Binary64.isPreferred_of_le hLow hLess
    · rcases Nat.lt_or_ge floor other with hMore | hLess
      · exact Binary64.isPreferred_of_ge hHigh.le hMore
      · have hGap :
            Binary64.gap m e ((floor + 1 : Nat) * 10 ^ power) ≤
              Binary64.gap m e (other * 10 ^ power) := by
          have hBefore := hBelow hLess
          rw [Binary64.gap_of_ge hHigh.le,
            Binary64.gap_of_le (hBefore.trans hLow)]
          have hFar' := not_lt.mp (mt hHalf.mpr hFar)
          push_cast
          linarith
        rcases hGap.lt_or_eq with hLt | hEq
        · exact Or.inl hLt
        · exact Or.inr ⟨hEq, by omega⟩
  · -- The nearer one is not in the interval, nor is what follows.
    cases hFound
    rw [contains_ofParts_iff e hPos] at hFirst
    rcases hBoth with ⟨rfl, rfl, -⟩ | ⟨rfl, rfl, -⟩
    · rcases Nat.lt_or_ge first other with hMore | hLess
      · exact Binary64.isPreferred_of_ge hHigh.le hMore
      · exact absurd (hCovers.of_le (hBelow hLess) hLow) hFirst
    · rcases Nat.lt_or_ge multiple other with hMore | hLess
      · exact absurd (hCovers.of_ge hHigh.le (hAbove hMore)) hFirst
      · exact Binary64.isPreferred_of_le hLow hLess

/-
  What is found for a number that some decimal of at most
  fifteen digits is rounded to is the closest decimal.
-/
theorem isClosest_shortest
    {digits scale : Nat}
    (hPos : 0 < m)
    (hFew : digits < 10 ^ 15)
    (hCovers :
      Binary64.Covers m e (digits * 10 ^ (-(scale : Int)))) :
    Binary64.IsClosest m e (ofParts m e).shortest.1
      (ofParts m e).shortest.2 where
  covers := covers_shortest hPos hFew hCovers
  fewest := fun _ _ hMore hOther =>
    absurd (le_power_shortest hPos hOther) hMore.not_ge
  nearest := fun _ hOther =>
    isPreferred_of_nearestAt? hPos
      (nearestAt?_shortest hPos hFew hCovers) hOther

/-
  It has no more digits than fifteen: a power of ten with
  sixteen would lie between it and the decimal that was read,
  and would be rounded to the number as well.
-/
theorem shortest_lt
    {digits scale : Nat}
    (hPos : 0 < m)
    (hFew : digits < 10 ^ 15)
    (hCovers :
      Binary64.Covers m e (digits * 10 ^ (-(scale : Int)))) :
    (ofParts m e).shortest.1 < 10 ^ 15 := by
  have hShortest := covers_shortest hPos hFew hCovers
  have hPower := le_power_shortest hPos hCovers
  have hMost (multiple : Nat) (power : Int)
      (hOther : Binary64.Covers m e (multiple * 10 ^ power)) :
      power ≤ (ofParts m e).shortest.2 :=
    le_power_shortest hPos hOther
  generalize (ofParts m e).shortest = found
    at hShortest hPower hMost ⊢
  by_contra hMany
  have hLow :
      (digits : ℚ) * 10 ^ (-(scale : Int)) ≤
        10 ^ 15 * 10 ^ found.2 := by
    have hCast : (digits : ℚ) ≤ 10 ^ 15 := by
      exact_mod_cast hFew.le
    have hPow : (10 : ℚ) ^ (-(scale : Int)) ≤ 10 ^ found.2 :=
      zpow_le_zpow_right₀ (by norm_num) hPower
    gcongr
  have hHigh :
      (10 : ℚ) ^ 15 * 10 ^ found.2 ≤ found.1 * 10 ^ found.2 := by
    have hTen := ten_zpow_pos found.2
    have hCast : (10 : ℚ) ^ 15 ≤ found.1 := by
      exact_mod_cast Nat.not_lt.mp hMany
    gcongr
  have hBetween :=
    Binary64.covers_between hCovers hShortest hLow hHigh
  have hPow :
      (10 : ℚ) ^ 15 * 10 ^ found.2 =
        (1 : Nat) * 10 ^ (found.2 + 15) := by
    rw [zpow_add₀ (by norm_num), Nat.cast_one, one_mul, mul_comm]
    norm_num
  rw [hPow] at hBetween
  have hMore := hMost 1 (found.2 + 15) hBetween
  omega

------------------------------------------------------------
-- Decimals Further Apart Than the Numbers
------------------------------------------------------------

/-
  Where a unit of the last decimal place is more than one of
  the last binary place, one decimal at most is rounded to
  the number, so that it is the one that is found.
-/
theorem shortest_value_eq
    {digits scale : Nat}
    (hPos : 0 < m)
    (hFew : digits < 10 ^ 15)
    (hCovers :
      Binary64.Covers m e (digits * 10 ^ (-(scale : Int))))
    (hApart : (2 : ℚ) ^ e < 10 ^ (-(scale : Int))) :
    ((ofParts m e).shortest.1 : ℚ) * 10 ^ (ofParts m e).shortest.2 =
      digits * 10 ^ (-(scale : Int)) := by
  have hShortest :
      Binary64.Covers m e
        ((ofParts m e).shortest.1 * 10 ^ (ofParts m e).shortest.2) :=
    covers_shortest hPos hFew hCovers
  have hPower := le_power_shortest hPos hCovers
  generalize (ofParts m e).shortest = found at hShortest hPower ⊢
  have hUnit := ten_zpow_pos (-(scale : Int))
  have hFound :
      (found.1 : ℚ) * 10 ^ found.2 =
        ((found.1 * 10 ^ (found.2 + scale).toNat : Nat) : ℚ)
          * 10 ^ (-(scale : Int)) := by
    push_cast
    rw [mul_assoc, ← zpow_natCast (10 : ℚ) (found.2 + scale).toNat,
      ← zpow_add₀ (by norm_num)]
    congr 2
    omega
  rw [hFound] at hShortest ⊢
  generalize found.1 * 10 ^ (found.2 + scale).toNat = multiple
    at hShortest ⊢
  have hNotMore (a b : Nat)
      (hFirst : Binary64.Covers m e (a * 10 ^ (-(scale : Int))))
      (hSecond : Binary64.Covers m e (b * 10 ^ (-(scale : Int)))) :
      a ≤ b := by
    by_contra hLess
    have hCast : (b : ℚ) + 1 ≤ a := by
      exact_mod_cast Nat.lt_of_not_le hLess
    have hWide := Binary64.sub_le_of_covers hFirst hSecond
    have hMul :
        ((b : ℚ) + 1) * 10 ^ (-(scale : Int)) ≤
          a * 10 ^ (-(scale : Int)) := by
      gcongr
    linarith
  rw [Nat.le_antisymm (hNotMore multiple digits hShortest hCovers)
    (hNotMore digits multiple hCovers hShortest)]

/- The smallest last binary place among the decimal places. -/
theorem two_zpow_minExponent_lt :
    (2 : ℚ) ^ Binary64.minExponent < 10 ^ (-323 : Int) := by
  have hPow : (10 : ℚ) ^ 323 < 2 ^ 1074 := by
    exact_mod_cast (by decide +kernel : 10 ^ 323 < 2 ^ 1074)
  have hMin : Binary64.minExponent = -(1074 : Nat) := rfl
  have hPlace : (-323 : Int) = -(323 : Nat) := rfl
  rw [hMin, hPlace, zpow_neg, zpow_neg, zpow_natCast, zpow_natCast]
  exact inv_strictAnti₀ (by positivity) hPow

theorem lt_two_zpow_minExponent :
    (2 : ℚ) * 10 ^ (-324 : Int) < 2 ^ Binary64.minExponent := by
  have hPow : (2 : ℚ) ^ 1074 * 2 < 10 ^ 324 := by
    exact_mod_cast (by decide +kernel : 2 ^ 1074 * 2 < 10 ^ 324)
  have hMin : Binary64.minExponent = -(1074 : Nat) := rfl
  have hPlace : (-324 : Int) = -(324 : Nat) := rfl
  rw [hMin, hPlace, zpow_neg, zpow_neg, zpow_natCast, zpow_natCast,
    ← div_eq_mul_inv, div_lt_iff₀ (by positivity),
    lt_inv_mul_iff₀ (by positivity)]
  exact hPow

/-
  With at most fifteen digits and 323 places that is so for
  every number: the smallest last binary place is less than
  a unit of the 323rd place, and a number above the smallest
  ones has more binary places than fifteen digits take.
-/
theorem two_zpow_lt_ten_zpow
    {digits scale : Nat}
    (hNormal : Binary64.IsNormal m e)
    (hFew : digits < 10 ^ 15)
    (hCovers :
      Binary64.Covers m e (digits * 10 ^ (-(scale : Int))))
    (hPlaces : scale ≤ 323) :
    (2 : ℚ) ^ e < 10 ^ (-(scale : Int)) := by
  have hUnit := ten_zpow_pos (-(scale : Int))
  rcases hNormal.full with hMin | hFull
  · have hLeast :
        (10 : ℚ) ^ (-323 : Int) ≤ 10 ^ (-(scale : Int)) :=
      zpow_le_zpow_right₀ (by norm_num) (by omega)
    rw [hMin]
    exact two_zpow_minExponent_lt.trans_le hLeast
  · have hTwo := two_zpow_pos e
    have hAbove := (size_bounds_of_covers hNormal.pos hCovers).1
    generalize (10 : ℚ) ^ (-(scale : Int)) = unit at hUnit hAbove ⊢
    generalize (2 : ℚ) ^ e = last at hTwo hAbove ⊢
    have hCast : (2 : ℚ) ^ 52 ≤ m := by exact_mod_cast hFull
    have hCast' : (digits : ℚ) ≤ 10 ^ 15 := by
      exact_mod_cast hFew.le
    have hLow : (2 : ℚ) ^ 52 * last ≤ m * last := by gcongr
    have hHigh : (digits : ℚ) * unit ≤ 10 ^ 15 * unit := by gcongr
    linarith

/-
  The decimal is found again where the shortest one has no
  places: a number of so many places would be less than one.
-/
theorem shortest_value_eq_of_whole
    {digits scale : Nat}
    (hNormal : Binary64.IsNormal m e)
    (hFew : digits < 10 ^ 15)
    (hCovers :
      Binary64.Covers m e (digits * 10 ^ (-(scale : Int))))
    (hWhole : 0 ≤ (ofParts m e).shortest.2) :
    ((ofParts m e).shortest.1 : ℚ) * 10 ^ (ofParts m e).shortest.2 =
      digits * 10 ^ (-(scale : Int)) := by
  apply shortest_value_eq hNormal.pos hFew hCovers
  apply two_zpow_lt_ten_zpow hNormal hFew hCovers
  by_contra hMany
  have hShortest := covers_shortest hNormal.pos hFew hCovers
  have hFound := (size_bounds_of_covers hNormal.pos hShortest).2
  have hSource := (size_bounds_of_covers hNormal.pos hCovers).1
  generalize (ofParts m e).shortest = found
    at hWhole hShortest hFound
  have hOne : (1 : ℚ) ≤ found.1 * 10 ^ found.2 :=
    one_le_mul_of_one_le_of_one_le
      (one_le_of_covers hNormal.pos hShortest)
      (one_le_zpow₀ (by norm_num) hWhole)
  have hSmall :
      (digits : ℚ) * 10 ^ (-(scale : Int)) ≤
        10 ^ 15 * 10 ^ (-17 : Int) := by
    have hCast : (digits : ℚ) ≤ 10 ^ 15 := by
      exact_mod_cast hFew.le
    have hPow : (10 : ℚ) ^ (-(scale : Int)) ≤ 10 ^ (-17 : Int) :=
      zpow_le_zpow_right₀ (by norm_num) (by omega)
    gcongr
  generalize (digits : ℚ) * 10 ^ (-(scale : Int)) = source
    at hSource hSmall
  norm_num at hSmall
  linarith

/-
  No number is written with more than 324 places: a unit of
  the 324th place is less than half of the smallest last
  binary place.
-/
theorem le_power_shortest_of_isNormal
    (hNormal : Binary64.IsNormal m e) :
    -324 ≤ (ofParts m e).shortest.2 := by
  rcases floorAt_bounds (den_ofParts_pos m e) (-324)
    with ⟨hLow, hHigh⟩
  rw [size_ofParts] at hLow hHigh
  have hTwo := two_zpow_pos e
  have hLeast : (2 : ℚ) ^ Binary64.minExponent ≤ 2 ^ e :=
    zpow_le_zpow_right₀ (by norm_num) hNormal.min
  have hUnit := lt_two_zpow_minExponent.trans_le hLeast
  generalize (ofParts m e).floorAt (-324) = floor at hLow hHigh
  have hCovers :
      Binary64.Covers m e ((floor + 1 : Nat) * 10 ^ (-324 : Int)) := by
    generalize (10 : ℚ) ^ (-324 : Int) = unit at hLow hHigh hUnit ⊢
    apply within_of_lt
    · have hEnd := (Binary64.lowEnd_bounds m e).2
      have hScaled : Binary64.lowEnd m e * 2 ^ e < m * 2 ^ e := by
        gcongr
      rw [lt_div_iff₀ hTwo]
      linarith
    · rw [div_lt_iff₀ hTwo]
      push_cast
      linarith
  exact le_power_shortest hNormal.pos hCovers

end Rounding

end SqlSelect
