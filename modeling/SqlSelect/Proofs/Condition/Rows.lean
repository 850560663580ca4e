import SqlSelect.Proofs.Condition.Depth
import SqlSelect.Proofs.Recall.Conditions

/-
  Texts that are read as rows of conditions, with AND in a row
  and OR between rows. Rows that are read stay as they are
  when the texts are joined, put in parentheses, or have NOT
  put in front of them.

  Main statements:
    * `Condition.ReadsRows`
    * `Condition.readNested_eq_ok_iff_rows`
    * `Condition.readsRows_of_atom`
    * `Condition.ReadsRows.and`
    * `Condition.ReadsRows.or`
    * `Condition.ReadsRows.enclosed`
    * `Condition.readsRows_inParentheses`
-/

namespace SqlSelect

namespace Condition

variable {env : Environment}
variable {allowance : Nat}
variable {s t : Text}
variable {c u : Condition}
variable {p : Predicate}
variable {rows rows' : List (List Condition)}

------------------------------------------------------------
-- Texts Read as Rows
------------------------------------------------------------

/-
  The text is balanced, and its parts are read as the
  conditions in the rows.
-/
structure ReadsRows
    (env : Environment)
    (allowance : Nat)
    (t : Text)
    (rows : List (List Condition)) : Prop where
  balanced : Text.Balanced t
  reads : ReadsAs env (within env allowance) (layout t) rows

/- What is read of a text is read as rows. -/
theorem readNested_eq_ok_iff_rows :
    readNested env allowance t = .ok c ↔
      ∃ rows, ReadsRows env allowance t rows ∧ c = ofRows rows := by
  constructor
  · intro hRead
    have hBalanced := balanced_of_readNested hRead
    rcases (readNested_eq_ok_iff hBalanced).mp hRead
      with ⟨rows, hReads, hRows⟩
    exact ⟨rows, ⟨hBalanced, hReads⟩, hRows⟩
  · rintro ⟨rows, ⟨hBalanced, hReads⟩, rfl⟩
    exact (readNested_eq_ok_iff hBalanced).mpr ⟨rows, hReads, rfl⟩

theorem ReadsRows.not_isBlank
    (hRows : ReadsRows env allowance t rows) :
    ¬ Text.IsBlank t :=
  not_isBlank_of_layout hRows.reads

theorem ReadsRows.ofText_eq
    (hRows : ReadsRows env depthLimit t rows) :
    ofText env t = .ok (ofRows rows) := by
  rw [ofText, if_neg hRows.not_isBlank]
  exact readNested_eq_ok_iff_rows.mpr ⟨rows, hRows, rfl⟩

/-
  A condition is read as rows within every number of
  parentheses that its tree fits in.
-/
theorem exists_readsRows
    (hText : ¬ Text.IsBlank t)
    (hRead : ofText env t = .ok c)
    (hNesting : c.nesting ≤ allowance) :
    ∃ rows, ReadsRows env allowance t rows ∧ c = ofRows rows := by
  rw [ofText, if_neg hText] at hRead
  exact
    readNested_eq_ok_iff_rows.mp
      (readNested_of_nesting_le hRead hNesting)

/- There is a row, and a condition in every row. -/
theorem ReadsRows.ne_nil
    (hRows : ReadsRows env allowance t rows) :
    rows ≠ [] ∧ ∀ row ∈ rows, row ≠ [] := by
  rcases layout_ne_nil t with ⟨hSome, hParts⟩
  refine ⟨?_, fun row hRow => ?_⟩
  · rintro rfl
    exact hSome (List.forall₂_nil_right_iff.mp hRows.reads)
  · rcases exists_of_mem_forall₂ hRows.reads hRow
      with ⟨r, hMem, hRowReads⟩
    rintro rfl
    exact hParts r hMem (List.forall₂_nil_right_iff.mp hRowReads)

/- Every condition in the rows is read of a part. -/
theorem ReadsRows.exists_readPart
    {row : List Condition}
    (hRows : ReadsRows env allowance t rows)
    (hRow : row ∈ rows)
    (hUnit : u ∈ row) :
    ∃ part, readPart env (within env allowance) part = .ok u := by
  rcases exists_of_mem_forall₂ hRows.reads hRow
    with ⟨r, -, hRowReads⟩
  rcases exists_of_mem_forall₂ hRowReads hUnit
    with ⟨part, -, hPart⟩
  exact ⟨part, hPart⟩

/- A single part is read as one row of one condition. -/
theorem readsRows_of_isPart
    (hPart : IsPart t)
    (hRead : readPart env (within env allowance) t = .ok u) :
    ReadsRows env allowance t [[u]] := by
  refine ⟨hPart.balanced, ?_⟩
  rw [layout_of_isPart hPart]
  refine .cons (.cons ?_ .nil) .nil
  rw [readPart_trim]
  exact hRead

/- A text that is read as one condition is a single part. -/
theorem ReadsRows.isPart
    (hRows : ReadsRows env allowance t [[u]]) :
    IsPart t ∧ readPart env (within env allowance) t = .ok u := by
  rcases hRows with ⟨hBalanced, hReads⟩
  rw [ReadsAs, List.forall₂_cons_right_iff] at hReads
  rcases hReads with ⟨r, rs, hRow, hRest, hLayout⟩
  rw [List.forall₂_nil_right_iff] at hRest
  subst hRest
  rw [RowReadsAs, List.forall₂_cons_right_iff] at hRow
  rcases hRow with ⟨part, others, hPart, hOthers, rfl⟩
  rw [List.forall₂_nil_right_iff] at hOthers
  subst hOthers
  rcases isPart_of_layout hBalanced hLayout with ⟨hText, rfl⟩
  rw [readPart_trim] at hPart
  exact ⟨hText, hPart⟩

------------------------------------------------------------
-- Rows That Are Joined
------------------------------------------------------------

/- OR puts the rows of two texts one after the other. -/
theorem ReadsRows.or
    (hFirst : ReadsRows env allowance s rows)
    (hSecond : ReadsRows env allowance t rows') :
    ReadsRows env allowance (s ++ (joint .or ++ t))
      (rows ++ rows') := by
  refine
    ⟨Text.balanced_append hFirst.balanced
      (Text.balanced_append (balanced_joint .or) hSecond.balanced), ?_⟩
  rw [layout_or isJoint_or hFirst.balanced hSecond.balanced]
  exact List.rel_append hFirst.reads hSecond.reads

/- What is related element by element stays so when it is glued. -/
theorem forall₂_glue
    {α β : Type}
    {R : List α → List β → Prop}
    {as as' : List (List α)}
    {bs bs' : List (List β)}
    (hAppend :
      ∀ a b a' b', R a b → R a' b' → R (a ++ a') (b ++ b'))
    (hFirst : List.Forall₂ R as bs)
    (hSecond : List.Forall₂ R as' bs') :
    List.Forall₂ R (glue (fun a a' => a ++ a') as as')
      (glue (fun b b' => b ++ b') bs bs') := by
  induction hFirst with
  | nil => exact hSecond
  | cons hHead hTail ih =>
      cases hTail with
      | nil =>
          cases hSecond with
          | nil => exact .cons hHead .nil
          | cons hNext hRest =>
              exact .cons (hAppend _ _ _ _ hHead hNext) hRest
      | cons hNext hRest => exact .cons hHead ih

/- AND makes one of the last row and the first. -/
theorem ReadsRows.and
    (hFirst : ReadsRows env allowance s rows)
    (hSecond : ReadsRows env allowance t rows') :
    ReadsRows env allowance (s ++ (joint .and ++ t))
      (glue (fun r r' => r ++ r') rows rows') := by
  refine
    ⟨Text.balanced_append hFirst.balanced
      (Text.balanced_append (balanced_joint .and) hSecond.balanced), ?_⟩
  rw [layout_and isJoint_and hFirst.balanced hSecond.balanced]
  exact
    forall₂_glue (fun _ _ _ _ hRow hRow' => List.rel_append hRow hRow')
      hFirst.reads hSecond.reads

/- Rows in parentheses are one condition, with NOT or without. -/
theorem ReadsRows.enclosed
    (negated : Bool)
    (hRows : ReadsRows env allowance t rows) :
    ReadsRows env (allowance + 1)
      (withNot negated (Written.inParentheses t))
      [[enclosed ((ofRows rows).negatedIf negated)]] := by
  have hPart := isPart_withNot_group negated hRows.balanced
  have hRead : readNested env allowance t = .ok (ofRows rows) :=
    readNested_eq_ok_iff_rows.mpr ⟨rows, hRows, rfl⟩
  refine readsRows_of_isPart hPart ?_
  exact
    (readPart_withNot_group_iff negated hRows.balanced).mpr
      ⟨hRows.not_isBlank, ofRows rows, hRead, rfl⟩

/-
  What is read of a text that is not blank is read of it in
  parentheses, with NOT or without, if these are not too many.
-/
theorem readsRows_inParentheses
    (negated : Bool)
    (hText : ¬ Text.IsBlank t)
    (hRead : ofText env t = .ok c)
    (hNesting : c.nesting < depthLimit) :
    ReadsRows env depthLimit
      (withNot negated (Written.inParentheses t))
      [[enclosed (c.negatedIf negated)]] := by
  rcases
      exists_readsRows hText hRead (Nat.le_sub_one_of_lt hNesting)
    with ⟨rows, hRows, rfl⟩
  exact hRows.enclosed negated

------------------------------------------------------------
-- Predicates
------------------------------------------------------------

/- A joined condition is a predicate only when it is alone. -/
theorem eq_singleton_of_atom
    {negated : Bool}
    {connective joined : Connective}
    {cs : List Condition}
    (hAtom :
      .atom negated connective p = joinAll joined cs) :
    cs = [.atom negated connective p] := by
  rcases cs with _ | ⟨c, _ | ⟨d, cs⟩⟩
  · exact absurd hAtom (by simp [joinAll, empty])
  · rw [hAtom]
    rfl
  · exact absurd hAtom (by simp [joinAll])

/- A text that is read as a predicate is a single part. -/
theorem readsRows_of_atom
    (allowance : Nat)
    {negated : Bool}
    {connective : Connective}
    (hRead : ofText env t = .ok (.atom negated connective p)) :
    ReadsRows env allowance t [[.atom negated connective p]] := by
  have hText : ¬ Text.IsBlank t := by
    intro hBlank
    rw [ofText, if_pos hBlank] at hRead
    exact absurd hRead (by simp [empty])
  have hNested :
      ∃ rows,
        ReadsRows env allowance t rows ∧
          .atom negated connective p = ofRows rows :=
    exists_readsRows hText hRead (by simp)
  rcases hNested with ⟨rows, hRows, hSame⟩
  rcases List.map_eq_singleton_iff.mp (eq_singleton_of_atom hSame)
    with ⟨row, rfl, hRow⟩
  rw [eq_singleton_of_atom hRow.symm] at hRows
  exact hRows

/- A predicate with NOT in front of it is read with NOT. -/
theorem ReadsRows.not_atom
    (negated : Bool)
    (hRows : ReadsRows env allowance t [[.atom false .first p]]) :
    ReadsRows env allowance (withNot negated t)
      [[.atom negated .first p]] := by
  rcases hRows.isPart with ⟨hPart, hRead⟩
  refine
    readsRows_of_isPart
      ((isPart_withNot_iff negated hPart.balanced).mpr hPart) ?_
  rcases readPart_eq_ok_iff.mp hRead with ⟨hText, hAtom | hGroup⟩
  · rcases hAtom with ⟨hEnclosed, q, hPredicate, hSame⟩
    rw [atom.injEq] at hSame
    rcases hSame with ⟨hBare, -, rfl⟩
    refine
      readPart_eq_ok_iff.mpr
        ⟨not_isBlank_withNot negated hText, .inl ?_⟩
    rw [bare_withNot negated hText, ← hBare, Bool.xor_false]
    exact ⟨hEnclosed, p, hPredicate, rfl⟩
  · rcases hGroup with ⟨_, _, d, -, -, -, -, hSame⟩
    exact absurd hSame (by simp [Condition.enclosed])

end Condition

end SqlSelect
