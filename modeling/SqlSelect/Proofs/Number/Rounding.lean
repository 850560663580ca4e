import Mathlib.Algebra.Order.Field.Power
import Mathlib.Data.Rat.Cast.Order
import Mathlib.Tactic.FieldSimp
import Mathlib.Tactic.Linarith
import Mathlib.Tactic.NormNum
import Mathlib.Tactic.Positivity
import Mathlib.Tactic.Ring
import SqlSelect.Number.Shortest

/-
  Rounding to binary numbers. A ratio is rounded to a number
  exactly when it lies in the interval of the number, which
  reaches halfway to its neighbours.

  Main statements:
    * `roundHalfEven_eq_iff`
    * `Binary64.lastPlace_eq_iff`
    * `Binary64.IsNormal`
    * `Binary64.Covers`
    * `Binary64.ofRatio_eq_finite_iff`
-/

namespace SqlSelect

------------------------------------------------------------
-- Intervals
------------------------------------------------------------

/- The ratio lies between two ends, or on one that belongs. -/
def Within
    (closed : Prop)
    [Decidable closed]
    (low q high : ℚ) : Prop :=
  if closed then low ≤ q ∧ q ≤ high else low < q ∧ q < high

section Within

variable {closed : Prop} [Decidable closed]
variable {low q high : ℚ}

theorem Within.le
    (hWithin : Within closed low q high) :
    low ≤ q ∧ q ≤ high := by
  rw [Within] at hWithin
  split_ifs at hWithin
  · exact hWithin
  · exact ⟨hWithin.1.le, hWithin.2.le⟩

theorem within_of_lt
    (hLow : low < q)
    (hHigh : q < high) :
    Within closed low q high := by
  rw [Within]
  split_ifs
  · exact ⟨hLow.le, hHigh.le⟩
  · exact ⟨hLow, hHigh⟩

/- A wider interval holds what the interval holds. -/
theorem Within.mono
    {low' high' : ℚ}
    (hWithin : Within closed low q high)
    (hLow : low' ≤ low)
    (hHigh : high ≤ high') :
    Within closed low' q high' := by
  rw [Within] at hWithin ⊢
  split_ifs at hWithin ⊢
  · exact ⟨hLow.trans hWithin.1, hWithin.2.trans hHigh⟩
  · exact ⟨hLow.trans_lt hWithin.1, hWithin.2.trans_le hHigh⟩

theorem within_mul_iff
    {k : ℚ}
    (hPos : 0 < k) :
    Within closed (low * k) (q * k) (high * k) ↔
      Within closed low q high := by
  rw [Within, Within]
  split_ifs
  · rw [mul_le_mul_iff_left₀ hPos, mul_le_mul_iff_left₀ hPos]
  · rw [mul_lt_mul_iff_left₀ hPos, mul_lt_mul_iff_left₀ hPos]

/- The other end does not count for what lies below it. -/
theorem Within.of_low
    {low' : ℚ}
    (hWithin : Within closed low q high)
    (hLow : low' < q) :
    Within closed low' q high := by
  rw [Within] at hWithin ⊢
  split_ifs at hWithin ⊢
  · exact ⟨hLow.le, hWithin.2⟩
  · exact ⟨hLow, hWithin.2⟩

end Within

------------------------------------------------------------
-- Whole Numbers
------------------------------------------------------------

theorem two_zpow_pos
    (e : Int) :
    (0 : ℚ) < 2 ^ e :=
  zpow_pos (by norm_num) e

/- How many binary places a ratio has down to some place. -/
theorem div_lt_two_pow_iff
    (q : ℚ)
    (e : Int)
    (places : Nat) :
    q / 2 ^ e < 2 ^ places ↔ q < 2 ^ (e + places) := by
  rw [div_lt_iff₀ (two_zpow_pos e), ← zpow_natCast (2 : ℚ) places,
    ← zpow_add₀ (by norm_num), add_comm]

theorem two_pow_le_div_iff
    (q : ℚ)
    (e : Int)
    (places : Nat) :
    2 ^ places ≤ q / 2 ^ e ↔ 2 ^ (e + places) ≤ q := by
  rw [le_div_iff₀ (two_zpow_pos e), ← zpow_natCast (2 : ℚ) places,
    ← zpow_add₀ (by norm_num), add_comm]

/- The ratio divided by a power of two is the quotient. -/
theorem ratio_divTwoPow
    (num den : Nat)
    (e : Int) :
    ((divTwoPow num den e).1 : ℚ) / (divTwoPow num den e).2 =
      num / den / 2 ^ e := by
  have hPow :
      (2 : ℚ) ^ e * 2 ^ (-e).toNat = 2 ^ e.toNat := by
    rw [← zpow_natCast, ← zpow_natCast (2 : ℚ) e.toNat,
      ← zpow_add₀ (by norm_num)]
    congr 1
    omega
  have hPos := two_zpow_pos e
  simp only [divTwoPow, Nat.pow_eq]
  push_cast
  rw [← hPow]
  field_simp

theorem den_divTwoPow_pos
    (num : Nat)
    {den : Nat}
    (e : Int)
    (hPos : 0 < den) :
    0 < (divTwoPow num den e).2 :=
  Nat.mul_pos hPos (Nat.pow_pos (by decide))

/-
  The ratio is less than one half away from a whole number,
  or exactly one half if that number is even.
-/
def Nearest
    (q : ℚ)
    (r : Nat) : Prop :=
  Within (r % 2 = 0) ((r : ℚ) - 1 / 2) q (r + 1 / 2)

theorem nearest_roundHalfEven
    (num : Nat)
    {den : Nat}
    (hPos : 0 < den) :
    Nearest (num / den) (roundHalfEven num den) := by
  have hDen : (0 : ℚ) < den := by exact_mod_cast hPos
  have hParts := Nat.div_add_mod num den
  have hRest := Nat.mod_lt num hPos
  rw [roundHalfEven]
  generalize num / den = floor at hParts ⊢
  generalize num % den = rest at hParts hRest ⊢
  have hRatio : (num : ℚ) / den = floor + rest / den := by
    rw [← hParts]
    push_cast
    field_simp
  have hSome : (0 : ℚ) ≤ rest / den := by positivity
  have hLess : (rest : ℚ) / den < 1 := by
    rw [div_lt_one hDen]
    exact_mod_cast hRest
  rw [hRatio]
  rcases Nat.lt_trichotomy (2 * rest) den with hBelow | hHalf | hAbove
  · have hCast : (rest : ℚ) / den < 1 / 2 := by
      rw [div_lt_div_iff₀ hDen (by norm_num)]
      have : (2 * rest : ℚ) < den := by exact_mod_cast hBelow
      linarith
    simp only [if_pos hBelow]
    apply within_of_lt <;> linarith
  · have hCast : (rest : ℚ) / den = 1 / 2 := by
      rw [div_eq_div_iff hDen.ne' (by norm_num)]
      have : (2 * rest : ℚ) = den := by exact_mod_cast hHalf
      linarith
    have hEven : (floor + floor % 2) % 2 = 0 := by omega
    simp only [if_neg hHalf.not_lt, if_neg hHalf.not_gt]
    rw [Nearest, Within, if_pos hEven, hCast]
    push_cast
    rcases Nat.mod_two_eq_zero_or_one floor with hMod | hMod
    · rw [hMod]
      constructor <;> push_cast <;> linarith
    · rw [hMod]
      constructor <;> push_cast <;> linarith
  · have hCast : 1 / 2 < (rest : ℚ) / den := by
      rw [div_lt_div_iff₀ (by norm_num) hDen]
      have : (den : ℚ) < 2 * rest := by exact_mod_cast hAbove
      linarith
    simp only [if_neg hAbove.not_gt, if_pos hAbove]
    apply within_of_lt <;> push_cast <;> linarith

/- Halfway between two whole numbers only one is even. -/
theorem le_of_nearest
    {q : ℚ}
    {r s : Nat}
    (hFirst : Nearest q r)
    (hSecond : Nearest q s) :
    s ≤ r := by
  by_contra hMore
  have hNext : r + 1 ≤ s := by omega
  have hCast : (r : ℚ) + 1 ≤ s := by exact_mod_cast hNext
  have hLow := hSecond.le.1
  have hHigh := hFirst.le.2
  have hHalf : q = r + 1 / 2 := by linarith
  have hSame : s = r + 1 := by
    have hEq : (s : ℚ) = r + 1 := by linarith
    exact_mod_cast hEq
  rw [Nearest, Within] at hFirst hSecond
  split_ifs at hFirst hSecond with hEven hEven'
  · omega
  · linarith [hSecond.1]
  · linarith [hFirst.2]
  · linarith [hFirst.2]

/- A ratio is rounded to the whole number nearest to it. -/
theorem roundHalfEven_eq_iff
    {num den r : Nat}
    (hPos : 0 < den) :
    roundHalfEven num den = r ↔ Nearest (num / den) r := by
  have hRound := nearest_roundHalfEven num hPos
  constructor
  · intro hEq
    rw [← hEq]
    exact hRound
  · intro hNear
    exact
      Nat.le_antisymm (le_of_nearest hNear hRound)
        (le_of_nearest hRound hNear)

------------------------------------------------------------
-- The Last Place
------------------------------------------------------------

namespace Binary64

/-
  The last place of a ratio: there are 53 places of the ratio
  down to it, or less if it is the smallest exponent.
-/
structure IsLastPlace
    (q : ℚ)
    (place : Int) : Prop where
  min : minExponent ≤ place
  lt : q < 2 ^ (place + 53)
  full : place = minExponent ∨ 2 ^ (place + 52) ≤ q

theorem le_of_isLastPlace
    {q : ℚ}
    {e f : Int}
    (hFirst : IsLastPlace q e)
    (hSecond : IsLastPlace q f) :
    f ≤ e := by
  by_contra hMore
  rcases hSecond.full with hMin | hFull
  · have hLeast := hFirst.min
    omega
  · have hPow : (2 : ℚ) ^ (e + 53) ≤ 2 ^ (f + 52) :=
      zpow_le_zpow_right₀ (by norm_num) (by omega)
    linarith [hFirst.lt]

/- The first binary place of a ratio is one of two. -/
theorem two_pow_log2_bounds
    {num den : Nat}
    (hNum : 0 < num)
    (hDen : 0 < den) :
    (2 : ℚ) ^ ((num.log2 : Int) - den.log2 - 1) ≤ num / den ∧
      (num : ℚ) / den < 2 ^ ((num.log2 : Int) - den.log2 + 1) := by
  have hNumLow : (2 : ℚ) ^ num.log2 ≤ num := by
    exact_mod_cast Nat.log2_self_le hNum.ne'
  have hNumHigh : (num : ℚ) < 2 ^ (num.log2 + 1) := by
    exact_mod_cast Nat.lt_log2_self
  have hDenLow : (2 : ℚ) ^ den.log2 ≤ den := by
    exact_mod_cast Nat.log2_self_le hDen.ne'
  have hDenHigh : (den : ℚ) < 2 ^ (den.log2 + 1) := by
    exact_mod_cast Nat.lt_log2_self
  have hDen' : (0 : ℚ) < den := by exact_mod_cast hDen
  constructor
  · rw [le_div_iff₀ hDen']
    calc
      (2 : ℚ) ^ ((num.log2 : Int) - den.log2 - 1) * den ≤
          2 ^ ((num.log2 : Int) - den.log2 - 1)
            * 2 ^ (den.log2 + 1) := by
        gcongr
      _ = 2 ^ num.log2 := by
        rw [← zpow_natCast, ← zpow_natCast,
          ← zpow_add₀ (by norm_num)]
        congr 1
        push_cast
        ring
      _ ≤ num := hNumLow
  · rw [div_lt_iff₀ hDen']
    calc
      (num : ℚ) < 2 ^ (num.log2 + 1) := hNumHigh
      _ = 2 ^ ((num.log2 : Int) - den.log2 + 1)
            * 2 ^ den.log2 := by
        rw [← zpow_natCast, ← zpow_natCast,
          ← zpow_add₀ (by norm_num)]
        congr 1
        push_cast
        ring
      _ ≤ 2 ^ ((num.log2 : Int) - den.log2 + 1) * den := by
        gcongr

theorem isLastPlace_of_first
    {q : ℚ}
    {first : Int}
    (hLow : 2 ^ first ≤ q)
    (hHigh : q < 2 ^ (first + 1)) :
    IsLastPlace q (max (first - 52) minExponent) := by
  refine ⟨le_max_right _ _, ?_, ?_⟩
  · apply hHigh.trans_le
    apply zpow_le_zpow_right₀ (by norm_num)
    have hMax := le_max_left (first - 52) minExponent
    omega
  · rcases le_total (first - 52) minExponent with hLess | hMore
    · exact Or.inl (max_eq_right hLess)
    · rw [max_eq_left hMore, sub_add_cancel]
      exact Or.inr hLow

theorem isLastPlace_lastPlace
    {num den : Nat}
    (hNum : 0 < num)
    (hDen : 0 < den) :
    IsLastPlace (num / den) (lastPlace num den) := by
  rcases two_pow_log2_bounds hNum hDen with ⟨hLow, hHigh⟩
  have hRatio :=
    ratio_divTwoPow num den
      (Int.ofNat num.log2 - Int.ofNat den.log2)
  have hUnit :=
    den_divTwoPow_pos num
      (Int.ofNat num.log2 - Int.ofNat den.log2) hDen
  rw [lastPlace]
  simp only [Int.ofNat_eq_natCast] at hRatio hUnit ⊢
  generalize (num.log2 : Int) - den.log2 = guess
    at hLow hHigh hRatio hUnit ⊢
  generalize divTwoPow num den guess = parts at hRatio hUnit ⊢
  have hUnit' : (0 : ℚ) < parts.2 := by exact_mod_cast hUnit
  have hReaches :
      parts.2 ≤ parts.1 ↔ (2 : ℚ) ^ guess ≤ num / den := by
    rw [← one_le_div₀ (two_zpow_pos guess), ← hRatio,
      one_le_div₀ hUnit']
    exact Nat.cast_le.symm
  by_cases hFirst : parts.2 ≤ parts.1
  · rw [if_pos hFirst]
    exact isLastPlace_of_first (hReaches.mp hFirst) hHigh
  · rw [if_neg hFirst]
    apply isLastPlace_of_first hLow
    rw [sub_add_cancel]
    exact lt_of_not_ge (mt hReaches.mpr hFirst)

theorem lastPlace_eq_iff
    {num den : Nat}
    {e : Int}
    (hNum : 0 < num)
    (hDen : 0 < den) :
    lastPlace num den = e ↔ IsLastPlace (num / den) e := by
  have hPlace := isLastPlace_lastPlace hNum hDen
  constructor
  · intro hEq
    rw [← hEq]
    exact hPlace
  · intro hOther
    exact
      le_antisymm (le_of_isLastPlace hOther hPlace)
        (le_of_isLastPlace hPlace hOther)

------------------------------------------------------------
-- The Interval of a Number
------------------------------------------------------------

/-
  The parts of a positive finite number: 53 places, or less
  at the smallest exponent.
-/
structure IsNormal
    (m : Nat)
    (e : Int) : Prop where
  pos : 0 < m
  lt : m < 2 ^ 53
  min : minExponent ≤ e
  max : e ≤ maxExponent
  full : e = minExponent ∨ 2 ^ 52 ≤ m

/- The number is a power of two with a closer one below it. -/
def IsPower
    (m : Nat)
    (e : Int) : Prop :=
  m = 2 ^ 52 ∧ minExponent < e

instance
    (m : Nat)
    (e : Int) :
    Decidable (IsPower m e) := by
  unfold IsPower
  infer_instance

/-
  The lower end of the interval around a number, in units of
  its last place.
-/
def lowEnd
    (m : Nat)
    (e : Int) : ℚ :=
  if IsPower m e then m - 1 / 4 else m - 1 / 2

/- The ratio lies in the interval around a number. -/
def Covers
    (m : Nat)
    (e : Int)
    (q : ℚ) : Prop :=
  Within (m % 2 = 0) (lowEnd m e) (q / 2 ^ e) (m + 1 / 2)

theorem lowEnd_bounds
    (m : Nat)
    (e : Int) :
    (m : ℚ) - 1 / 2 ≤ lowEnd m e ∧ lowEnd m e < m := by
  rw [lowEnd]
  split_ifs
  · constructor <;> linarith
  · constructor <;> linarith

/- What the interval holds is nearest to the number. -/
theorem Covers.nearest
    {m : Nat}
    {e : Int}
    {q : ℚ}
    (hCovers : Covers m e q) :
    Nearest (q / 2 ^ e) m :=
  hCovers.mono (lowEnd_bounds m e).1 le_rfl

/-
  The ratio that is nearest to a number and has the same last
  place lies in the interval around it.
-/
theorem covers_of_nearest
    {m : Nat}
    {e : Int}
    {q : ℚ}
    (hPlace : IsLastPlace q e)
    (hNear : Nearest (q / 2 ^ e) m) :
    Covers m e q := by
  rw [Covers]
  by_cases hPower : IsPower m e
  · apply hNear.of_low
    rcases hPlace.full with hMin | hFull
    · exact absurd hPower.2 (by omega)
    · have hScaled : (2 : ℚ) ^ 52 ≤ q / 2 ^ e :=
        (two_pow_le_div_iff q e 52).mpr hFull
      have hBelow := (lowEnd_bounds m e).2
      rw [hPower.1] at hBelow ⊢
      push_cast at hBelow
      linarith
  · have hEnd : lowEnd m e = m - 1 / 2 := if_neg hPower
    rw [hEnd]
    exact hNear

/- Every ratio has a last place and a number nearest to it. -/
theorem exists_lastPlace_nearest
    {num den : Nat}
    (hNum : 0 < num)
    (hDen : 0 < den) :
    ∃ place r,
      IsLastPlace (num / den) place ∧
        Nearest (num / den / 2 ^ place) r := by
  have hNear :=
    nearest_roundHalfEven (divTwoPow num den (lastPlace num den)).1
      (den_divTwoPow_pos num (lastPlace num den) hDen)
  rw [ratio_divTwoPow] at hNear
  exact ⟨_, _, isLastPlace_lastPlace hNum hDen, hNear⟩

/- What the last place and the nearest number make of a ratio. -/
theorem ofRatio_eq
    (negative : Bool)
    {num den r : Nat}
    {place : Int}
    (hNum : 0 < num)
    (hDen : 0 < den)
    (hPlace : IsLastPlace (num / den) place)
    (hNear : Nearest (num / den / 2 ^ place) r) :
    ofRatio negative num den =
      if r = 2 ^ 53 then
        if maxExponent < place + 1 then .infinite negative
        else .finite negative (2 ^ 52) (place + 1)
      else if maxExponent < place then .infinite negative
      else .finite negative r place := by
  have hLast := (lastPlace_eq_iff hNum hDen).mpr hPlace
  have hUnit := den_divTwoPow_pos num place hDen
  rw [← ratio_divTwoPow] at hNear
  have hRound := (roundHalfEven_eq_iff hUnit).mpr hNear
  rw [ofRatio, if_neg hNum.ne']
  simp only [hLast, hRound, Nat.pow_eq]
  by_cases hFull : r = 2 ^ 53
  · rw [if_pos hFull, if_pos hFull]
  · rw [if_neg hFull, if_neg hFull]

/- Halving the unit doubles the ratio. -/
theorem div_two_zpow_pred
    (q : ℚ)
    (e : Int) :
    q / 2 ^ (e - 1) = 2 * (q / 2 ^ e) := by
  rw [zpow_sub_one₀ (by norm_num)]
  have hPos := two_zpow_pos e
  field_simp

theorem lt_of_nearest
    {m : Nat}
    {e : Int}
    {q : ℚ}
    (hPlace : IsLastPlace q e)
    (hNear : Nearest (q / 2 ^ e) m)
    (hOther : m ≠ 2 ^ 53) :
    m < 2 ^ 53 := by
  have hScaled : q / 2 ^ e < 2 ^ 53 :=
    (div_lt_two_pow_iff q e 53).mpr hPlace.lt
  have hLow := hNear.le.1
  have hCast : (m : ℚ) < 2 ^ 53 + 1 := by linarith
  have hLess : m < 2 ^ 53 + 1 := by exact_mod_cast hCast
  omega

theorem full_of_nearest
    {m : Nat}
    {e : Int}
    {q : ℚ}
    (hPlace : IsLastPlace q e)
    (hNear : Nearest (q / 2 ^ e) m) :
    e = minExponent ∨ 2 ^ 52 ≤ m := by
  rcases hPlace.full with hMin | hFull
  · exact Or.inl hMin
  · have hScaled : (2 : ℚ) ^ 52 ≤ q / 2 ^ e :=
      (two_pow_le_div_iff q e 52).mpr hFull
    have hHigh := hNear.le.2
    have hCast : (2 : ℚ) ^ 52 < m + 1 := by linarith
    have hLess : 2 ^ 52 < m + 1 := by exact_mod_cast hCast
    exact Or.inr (by omega)

/- What is rounded up to 53 places and one more. -/
theorem covers_of_carry
    {e : Int}
    {q : ℚ}
    (hPlace : IsLastPlace q e)
    (hNear : Nearest (q / 2 ^ e) (2 ^ 53)) :
    Covers (2 ^ 52) (e + 1) q := by
  have hPower : IsPower (2 ^ 52) (e + 1) := by
    have hMin := hPlace.min
    exact ⟨rfl, by omega⟩
  have hHalf := div_two_zpow_pred q (e + 1)
  rw [add_sub_cancel_right] at hHalf
  rw [hHalf] at hNear
  have hNear' := hNear.le
  push_cast at hNear'
  rw [Covers, Within, if_pos (by decide), lowEnd, if_pos hPower]
  push_cast
  constructor <;> linarith

/-
  Below a power of two the last place is a smaller one, and
  what the interval holds there is rounded up.
-/
theorem nearest_of_covers_below
    {m : Nat}
    {e : Int}
    {q : ℚ}
    (hNormal : IsNormal m e)
    (hCovers : Covers m e q)
    (hAbove : e ≠ minExponent)
    (hBelow : q < 2 ^ (e + 52)) :
    m = 2 ^ 52 ∧ IsLastPlace q (e - 1) ∧
      Nearest (q / 2 ^ (e - 1)) (2 ^ 53) := by
  have hScaled : q / 2 ^ e < 2 ^ 52 :=
    (div_lt_two_pow_iff q e 52).mpr hBelow
  have hMin := hNormal.min
  have hFull := hNormal.full.resolve_left hAbove
  have hLow := hCovers.le.1
  have hPower : m = 2 ^ 52 := by
    by_contra hOther
    have hMore : 2 ^ 52 + 1 ≤ m := by omega
    have hCast : (2 : ℚ) ^ 52 + 1 ≤ m := by exact_mod_cast hMore
    have hEnd := (lowEnd_bounds m e).1
    linarith
  have hIsPower : IsPower m e := ⟨hPower, by omega⟩
  rw [lowEnd, if_pos hIsPower, hPower] at hLow
  push_cast at hLow
  refine ⟨hPower, ⟨by omega, ?_, Or.inr ?_⟩, ?_⟩
  · rw [show e - 1 + 53 = e + 52 by ring]
    exact hBelow
  · have hSome : (2 : ℚ) ^ 51 ≤ q / 2 ^ e := by
      norm_num at hLow ⊢
      linarith
    rw [show e - 1 + 52 = e + 51 by ring]
    exact (two_pow_le_div_iff q e 51).mp hSome
  · rw [Nearest, Within, if_pos (by decide), div_two_zpow_pred]
    push_cast
    constructor <;> linarith

/-
  A ratio is rounded to a number exactly when it lies in the
  interval of the number. The only ratios in it with another
  last place are those below a power of two.
-/
theorem ofRatio_eq_finite_iff
    (negative : Bool)
    {num den m : Nat}
    {e : Int}
    (hNum : 0 < num)
    (hDen : 0 < den)
    (hSome : 0 < m) :
    ofRatio negative num den = .finite negative m e ↔
      IsNormal m e ∧ Covers m e (num / den) := by
  constructor
  · intro hRead
    rcases exists_lastPlace_nearest hNum hDen
      with ⟨place, r, hPlace, hNear⟩
    rw [ofRatio_eq negative hNum hDen hPlace hNear] at hRead
    split_ifs at hRead with hCarry hInfinite hInfinite
    · cases hRead
      rw [hCarry] at hNear
      have hMin := hPlace.min
      exact
        ⟨⟨by decide, by decide, by omega, by omega,
            Or.inr le_rfl⟩,
          covers_of_carry hPlace hNear⟩
    · cases hRead
      exact
        ⟨⟨hSome, lt_of_nearest hPlace hNear hCarry, hPlace.min,
            by omega, full_of_nearest hPlace hNear⟩,
          covers_of_nearest hPlace hNear⟩
  · rintro ⟨hNormal, hCovers⟩
    have hMax := hNormal.max
    by_cases hSame : IsLastPlace (num / den) e
    · rw [ofRatio_eq negative hNum hDen hSame hCovers.nearest,
        if_neg hNormal.lt.ne, if_neg (by omega)]
    · have hScaled : (num : ℚ) / den < 2 ^ (e + 53) := by
        have hHigh := hCovers.le.2
        have hLess : m + 1 ≤ 2 ^ 53 := hNormal.lt
        have hCast : (m : ℚ) + 1 ≤ 2 ^ 53 := by
          exact_mod_cast hLess
        have hBound : (num : ℚ) / den / 2 ^ e < 2 ^ 53 := by
          linarith
        exact (div_lt_two_pow_iff _ e 53).mp hBound
      have hAbove : e ≠ minExponent := fun hMin =>
        hSame ⟨hNormal.min, hScaled, Or.inl hMin⟩
      have hBelow : (num : ℚ) / den < 2 ^ (e + 52) := by
        apply lt_of_not_ge
        intro hFull
        exact hSame ⟨hNormal.min, hScaled, Or.inr hFull⟩
      rcases nearest_of_covers_below hNormal hCovers hAbove hBelow
        with ⟨hPower, hPlace, hNear⟩
      rw [ofRatio_eq negative hNum hDen hPlace hNear,
        if_pos rfl, if_neg (by omega), sub_add_cancel, hPower]

end Binary64

end SqlSelect
