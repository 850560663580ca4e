import Mathlib.Logic.Basic
import Mathlib.Tactic.SplitIfs
import SqlSelect.Number.Decimal
import SqlSelect.Proofs.Number.Digits

/-
  Numerals at full precision. A numeral is filled before it is
  read, with a zero for a missing whole part and without a
  point at its end. What is read has the digits, the places
  and the sign of the numeral itself.

  Main statements:
    * `Numeral.cutAt?_filled`
    * `Decimal.ofUnsigned?_filled`
    * `Decimal.ofNumeral?_of_isSpelled`
-/

namespace SqlSelect

------------------------------------------------------------
-- Filled Numerals
------------------------------------------------------------

namespace Numeral

variable {n : Numeral}

theorem filledWhole_ne_nil
    (n : Numeral) :
    n.filledWhole ≠ [] := by
  rw [filledWhole]
  split_ifs with hWhole
  · exact List.cons_ne_nil _ _
  · exact hWhole

theorem isDigits_filledWhole
    (hSpelled : n.IsSpelled) :
    IsDigits n.filledWhole := by
  rw [filledWhole]
  split_ifs
  · decide
  · exact hSpelled.whole

/- A zero in front is worth nothing. -/
theorem digitsValue_filledWhole_append
    (n : Numeral) :
    digitsValue (n.filledWhole ++ n.fraction) = n.digits := by
  rw [filledWhole, digits]
  split_ifs with hWhole
  · rw [hWhole, digitsValue_append]
    exact Nat.zero_add _
  · rfl

/- The point is where it was, unless it stood at the end. -/
theorem cutAt?_filled
    (hSpelled : n.IsSpelled) :
    Text.cutAt? '.' n.filled =
      if n.fraction = [] then none
      else some (n.filledWhole, n.fraction) := by
  have hNone : '.' ∉ n.filledWhole :=
    point_not_mem_of_isDigits (isDigits_filledWhole hSpelled)
  rw [filled]
  split_ifs with hFraction
  · exact Text.cutAt?_eq_none hNone
  · exact Text.cutAt?_append _ hNone

end Numeral

------------------------------------------------------------
-- Reading Without Rounding
------------------------------------------------------------

namespace Decimal

variable {n : Numeral}

/- A filled numeral is read by its parts. -/
theorem ofUnsigned?_filled
    (hSpelled : n.IsSpelled) :
    ofUnsigned? n.filled =
      unrounded? n.filledWhole n.fraction := by
  rw [ofUnsigned?, Numeral.cutAt?_filled hSpelled]
  by_cases hFraction : n.fraction = []
  · rw [if_pos hFraction, Numeral.filled, if_pos hFraction,
      hFraction]
  · simp only [if_neg hFraction]

/- The parts have the digits and the places of the numeral. -/
theorem unrounded?_filledWhole
    (hSpelled : n.IsSpelled) :
    unrounded? n.filledWhole n.fraction =
      if n.digits ≤ maxCoefficient ∧ n.scale ≤ maxScale then
        some ⟨false, n.digits, n.scale⟩
      else none := by
  have hFits :
      (n.filledWhole ≠ [] ∧ IsDigits n.filledWhole ∧
          IsDigits n.fraction ∧ n.digits ≤ maxCoefficient ∧
          n.fraction.length ≤ maxScale) ↔
        n.digits ≤ maxCoefficient ∧ n.scale ≤ maxScale := by
    simp only [n.filledWhole_ne_nil, ne_eq, not_false_eq_true,
      Numeral.isDigits_filledWhole hSpelled, hSpelled.fraction,
      true_and, Numeral.scale]
  simp only [unrounded?, n.digitsValue_filledWhole_append]
  exact if_congr hFits rfl rfl

/- A numeral is read as itself, if it fits. -/
theorem ofNumeral?_of_isSpelled
    (hSpelled : n.IsSpelled) :
    ofNumeral? n =
      if n.digits ≤ maxCoefficient ∧ n.scale ≤ maxScale then
        some ⟨n.negative, n.digits, n.scale⟩
      else none := by
  rw [ofNumeral?, ofUnsigned?_filled hSpelled,
    unrounded?_filledWhole hSpelled]
  split_ifs
  · rfl
  · rfl

end Decimal

end SqlSelect
