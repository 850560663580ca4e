import SqlSelect.Proofs.Condition.Form
import SqlSelect.Proofs.Condition.Rows

/-
  Conditions that are combined in writing. Two texts that are
  read on their own are read as before when they are put in
  parentheses and joined, and what joins them joins their
  trees. Without parentheses OR puts the alternatives of both
  one after the other.

  Main statements:
    * `Condition.alternatives_ofRows`
    * `Condition.ofText_combined`
-/

namespace SqlSelect

namespace Condition

variable {env : Environment}
variable {allowance : Nat}
variable {s t : Text}
variable {c d : Condition}
variable {rows rows' : List (List Condition)}

------------------------------------------------------------
-- Trees That Are Joined
------------------------------------------------------------

/-
  The alternatives of rows are the rows, apart from what
  joins them. A row of one condition is not several that are
  joined with OR, and neither is a row of more.
-/
theorem alternatives_ofRows
    {inner : Condition → Prop}
    (hSome : rows ≠ [])
    (hRows : ∀ row ∈ rows, row ≠ [] ∧ ∀ u ∈ row, IsUnit inner u)
    (k : Connective) :
    (ofRows rows).alternatives.map (fun c => c.joinedBy k) =
      (rows.map (joinAll .and)).map fun c => c.joinedBy k := by
  rcases rows with _ | ⟨row, _ | ⟨row', rows⟩⟩
  · exact absurd rfl hSome
  · have hAlone : (joinAll .and row).alternatives = [joinAll .and row] := by
      rcases hRows row List.mem_cons_self with ⟨hParts, hUnits⟩
      rcases row with _ | ⟨u, _ | ⟨v, row⟩⟩
      · exact absurd rfl hParts
      · have hUnit := hUnits u List.mem_cons_self
        cases hUnit <;> rfl
      · rw [joinAll_eq_group, chained, List.map_cons, alternatives,
          connective_joinedBy]
        rfl
    rw [ofRows, List.map_singleton, joinAll, hAlone]
  · rw [ofRows, List.map_cons, List.map_cons, joinAll_eq_group,
      chained, List.map_cons, alternatives, connective_joinedBy,
      if_pos rfl]
    simp

/- The rows of two texts, one after the other, are several. -/
theorem ofRows_append
    (hFirst : rows ≠ [])
    (hSecond : rows' ≠ []) :
    ofRows (rows ++ rows') =
      .group false .first
        (chained .or ((rows ++ rows').map (joinAll .and))) := by
  cases rows with
  | nil => exact absurd rfl hFirst
  | cons row rows =>
      cases rows with
      | nil =>
          cases rows' with
          | nil => exact absurd rfl hSecond
          | cons row' rows' => rfl
      | cons next rows => rfl

------------------------------------------------------------
-- Conditions That Are Combined
------------------------------------------------------------

/- The units of rows that are read are predicates or in parentheses. -/
theorem ReadsRows.isUnit
    (hRows : ReadsRows env allowance t rows) :
    ∀ row ∈ rows, row ≠ [] ∧ ∀ u ∈ row, IsUnit (fun _ => True) u := by
  intro row hRow
  refine ⟨hRows.ne_nil.2 row hRow, fun u hUnit => ?_⟩
  rcases hRows.exists_readPart hRow hUnit with ⟨part, hPart⟩
  exact isUnit_of_readPart (fun _ _ _ _ _ => trivial) hPart

/-
  Two conditions are combined in writing as they are in a
  tree: in parentheses with AND or OR between them, or one of
  them with NOT in front. With OR between them and without
  parentheses their alternatives stand side by side.
-/
theorem ofText_combined
    (hFirst : ¬ Text.IsBlank s)
    (hSecond : ¬ Text.IsBlank t)
    (hReadFirst : ofText env s = .ok c)
    (hReadSecond : ofText env t = .ok d)
    (hNestingFirst : c.nesting < depthLimit)
    (hNestingSecond : d.nesting < depthLimit) :
    ofText env
          ("(".toList ++ s ++ ") AND (".toList ++ t ++ ")".toList) =
        .ok
          (.group false .first
            (chained .and [enclosed c, enclosed d])) ∧
      ofText env
          ("(".toList ++ s ++ ") OR (".toList ++ t ++ ")".toList) =
        .ok
          (.group false .first
            (chained .or [enclosed c, enclosed d])) ∧
      ofText env ("NOT (".toList ++ s ++ ")".toList) =
        .ok (enclosed (c.negatedIf true)) ∧
      ofText env (s ++ " OR ".toList ++ t) =
        .ok
          (.group false .first
            (chained .or (c.alternatives ++ d.alternatives))) := by
  have hGroup :=
    readsRows_inParentheses false hFirst hReadFirst hNestingFirst
  have hGroup' :=
    readsRows_inParentheses false hSecond hReadSecond hNestingSecond
  have hNot :=
    readsRows_inParentheses true hFirst hReadFirst hNestingFirst
  rw [negatedIf_false] at hGroup hGroup'
  refine ⟨?_, ?_, ?_, ?_⟩
  · have hText :
        "(".toList ++ s ++ ") AND (".toList ++ t ++ ")".toList =
          withNot false (Written.inParentheses s) ++
            (joint .and ++ withNot false (Written.inParentheses t)) := by
      simp [withNot, joint, Written.inParentheses]
    rw [hText]
    exact (hGroup.and hGroup').ofText_eq
  · have hText :
        "(".toList ++ s ++ ") OR (".toList ++ t ++ ")".toList =
          withNot false (Written.inParentheses s) ++
            (joint .or ++ withNot false (Written.inParentheses t)) := by
      simp [withNot, joint, Written.inParentheses]
    rw [hText]
    exact (hGroup.or hGroup').ofText_eq
  · have hText :
        "NOT (".toList ++ s ++ ")".toList =
          withNot true (Written.inParentheses s) := by
      simp [withNot, Written.inParentheses]
    rw [hText]
    exact hNot.ofText_eq
  · rcases exists_readsRows hFirst hReadFirst hNestingFirst.le
      with ⟨rows, hRows, rfl⟩
    rcases exists_readsRows hSecond hReadSecond hNestingSecond.le
      with ⟨rows', hRows', rfl⟩
    have hText :
        s ++ " OR ".toList ++ t = s ++ (joint .or ++ t) := by
      simp [joint]
    have hAlternatives :
        chained .or
            ((ofRows rows).alternatives ++ (ofRows rows').alternatives) =
          chained .or ((rows ++ rows').map (joinAll .and)) := by
      apply chained_congr
      intro k
      rw [List.map_append, List.map_append, List.map_append,
        alternatives_ofRows hRows.ne_nil.1 hRows.isUnit,
        alternatives_ofRows hRows'.ne_nil.1 hRows'.isUnit]
    rw [hText, (hRows.or hRows').ofText_eq,
      ofRows_append hRows.ne_nil.1 hRows'.ne_nil.1, hAlternatives]

/- A text with a keyword and parentheses in it, or a value. -/
def quotedOrPresent : Condition :=
  .group false .first
    [ .atom false .first
        ⟨"A".toList, .eq, some "x') OR ('".toList, none,
          some (.string "x') OR ('".toList)⟩,
      .group false .or [.atom true .first (.bare "A".toList .isNull)] ]

/- No value, said twice. -/
def twiceMissing : Condition :=
  .group false .first
    [ .atom false .first (.bare "A".toList .isNull),
      .atom false .and (.bare "A".toList .isNull) ]

/- Alternatives and a row, next to a string with a keyword. -/
theorem ofText_combined_quoted :
    ofText (oneField "A".toList)
          "(A = 'x'') OR (''' OR NOT (A IS NULL)) AND (A IS NULL AND A IS NULL)".toList =
        .ok
          (.group false .first
            [ .group false .first [quotedOrPresent],
              .group false .and [twiceMissing] ]) ∧
      ofText (oneField "A".toList)
          "A = 'x'') OR (''' OR NOT (A IS NULL) OR A IS NULL AND A IS NULL".toList =
        .ok
          (.group false .first
            (quotedOrPresent.children ++
              [twiceMissing.joinedBy .or])) := by
  have hFirst :
      ofText (oneField "A".toList)
          "A = 'x'') OR (''' OR NOT (A IS NULL)".toList =
        .ok quotedOrPresent := by
    decide +kernel
  have hSecond :
      ofText (oneField "A".toList) "A IS NULL AND A IS NULL".toList =
        .ok twiceMissing := by
    decide +kernel
  have hCombined :=
    ofText_combined (by decide +kernel) (by decide +kernel) hFirst
      hSecond (by decide +kernel) (by decide +kernel)
  exact ⟨hCombined.1, hCombined.2.2.2⟩

end Condition

end SqlSelect
