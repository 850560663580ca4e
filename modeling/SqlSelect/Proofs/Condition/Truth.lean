import SqlSelect.Condition.Form
import SqlSelect.Condition.Truth
import SqlSelect.Proofs.Recall.Trees

/-
  The truth of conditions that are joined. Conditions with AND
  between them hold when all of them do, and those with OR
  between them when any of them does.

  Main statements:
    * `Condition.holds_joinAll_cons`
    * `Condition.holds_joinAll_and`
    * `Condition.holds_joinAll_or`
    * `Condition.holds_ofRows`
-/

namespace SqlSelect

namespace Condition

variable (truth : Predicate → Bool)

@[simp]
theorem holds_joinedBy
    (connective : Connective)
    (c : Condition) :
    holds truth (c.joinedBy connective) = holds truth c := by
  cases c <;> simp [joinedBy, holds]

theorem holds_negatedIf
    (flip : Bool)
    (c : Condition) :
    holds truth (c.negatedIf flip) = (flip ^^ holds truth c) := by
  cases c <;> cases flip <;> simp [negatedIf, holds]

theorem holds_enclosed
    (c : Condition) :
    holds truth (enclosed c) = holds truth c := by
  simp [enclosed, holds, values, groupHolds, someHold]

theorem values_eq
    (cs : List Condition) :
    values truth cs = cs.map fun c => (c.connective, holds truth c) := by
  induction cs with
  | nil => rfl
  | cons c cs ih => rw [values, ih, List.map_cons]

theorem values_map_joinedBy
    (connective : Connective)
    (cs : List Condition) :
    values truth (cs.map fun c => c.joinedBy connective) =
      cs.map fun c => (connective, holds truth c) := by
  simp [values_eq, Function.comp_def]

theorem someHold_and
    (current : Bool)
    (cs : List Condition) :
    someHold current
        (cs.map fun c => (Connective.and, holds truth c)) =
      (current && cs.all (holds truth)) := by
  induction cs generalizing current with
  | nil => simp [someHold]
  | cons c cs ih => simp [someHold, ih, Bool.and_assoc]

theorem someHold_or
    (current : Bool)
    (cs : List Condition) :
    someHold current
        (cs.map fun c => (Connective.or, holds truth c)) =
      (current || cs.any (holds truth)) := by
  induction cs generalizing current with
  | nil => simp [someHold]
  | cons c cs ih => simp [someHold, ih]

/- Joined conditions are evaluated from the first one on. -/
theorem holds_joinAll_cons
    (connective : Connective)
    (c : Condition)
    (cs : List Condition) :
    holds truth (joinAll connective (c :: cs)) =
      someHold (holds truth c)
        (cs.map fun d => (connective, holds truth d)) := by
  cases cs with
  | nil => rfl
  | cons d cs =>
      have hRest := values_map_joinedBy truth connective (d :: cs)
      simp only [joinAll, holds, values, groupHolds, holds_joinedBy,
        hRest, Bool.false_xor]

/- Conditions joined with AND hold when all of them do. -/
theorem holds_joinAll_and
    {cs : List Condition}
    (hNotNil : cs ≠ []) :
    holds truth (joinAll .and cs) = cs.all (holds truth) := by
  rcases List.exists_cons_of_ne_nil hNotNil with ⟨c, cs, rfl⟩
  rw [holds_joinAll_cons, someHold_and, List.all_cons]

/- Conditions joined with OR hold when any of them does. -/
theorem holds_joinAll_or
    {cs : List Condition}
    (hNotNil : cs ≠ []) :
    holds truth (joinAll .or cs) = cs.any (holds truth) := by
  rcases List.exists_cons_of_ne_nil hNotNil with ⟨c, cs, rfl⟩
  rw [holds_joinAll_cons, someHold_or, List.any_cons]

/- Some row of conditions holds throughout. -/
def rowsHold
    (rows : List (List Condition)) : Bool :=
  rows.any fun row => row.all (holds truth)

/- Rows of conditions hold when some row does. -/
theorem holds_ofRows
    {rows : List (List Condition)}
    (hSome : rows ≠ [])
    (hRows : ∀ row ∈ rows, row ≠ []) :
    holds truth (ofRows rows) = rowsHold truth rows := by
  have hChildren : rows.map (joinAll .and) ≠ [] := by
    simpa using hSome
  rw [ofRows, holds_joinAll_or truth hChildren, List.any_map,
    rowsHold, Bool.eq_iff_iff, List.any_eq_true, List.any_eq_true]
  refine exists_congr fun row => and_congr_right fun hMem => ?_
  rw [Function.comp_apply, holds_joinAll_and truth (hRows row hMem)]

end Condition

end SqlSelect
