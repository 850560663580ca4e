import SqlSelect.Proofs.Condition.Outline
import SqlSelect.Proofs.Condition.Truth

/-
  The meaning of trees in writing. Parentheses stand around a
  group of one and behind NOT, but not around several
  conditions that another group holds. What is read back has
  the value of the tree where no AND is written next to an OR
  that it would bind tighter than.

  Main statements:
    * `Outline.rowsHold_foldl`
    * `Outline.rowsHold_groupRows`
    * `Condition.length_outer_eq_one_iff`
    * `Condition.rowsHold_outline`
-/

namespace SqlSelect

open Condition

------------------------------------------------------------
-- Rows That Are Filled
------------------------------------------------------------

/- There is a row, and a condition in every row. -/
def RowsFilled
    (rows : List (List Condition)) : Prop :=
  rows ≠ [] ∧ ∀ row ∈ rows, row ≠ []

variable {rows rows' : List (List Condition)}
variable {truth : Predicate → Bool}

theorem rowsFilled_singleton
    (u : Condition) :
    RowsFilled [[u]] := by
  simp [RowsFilled]

theorem RowsFilled.append
    (hFirst : RowsFilled rows)
    (hSecond : RowsFilled rows') :
    RowsFilled (rows ++ rows') :=
  ⟨List.append_ne_nil_of_left_ne_nil hFirst.1 _,
    List.forall_mem_append.mpr ⟨hFirst.2, hSecond.2⟩⟩

/- Rows that are glued are filled, by the recursion over them. -/
theorem RowsFilled.glue
    (hFirst : RowsFilled rows)
    (hSecond : RowsFilled rows') :
    RowsFilled (glue (fun row row' => row ++ row') rows rows') := by
  rcases hFirst with ⟨hSome, hRows⟩
  induction rows with
  | nil => exact absurd rfl hSome
  | cons row rows ih =>
      rw [List.forall_mem_cons] at hRows
      cases rows with
      | nil =>
          cases rows' with
          | nil => exact absurd rfl hSecond.1
          | cons row' rows' =>
              refine ⟨List.cons_ne_nil _ _, ?_⟩
              exact
                List.forall_mem_cons.mpr
                  ⟨List.append_ne_nil_of_left_ne_nil hRows.1 _,
                    (List.forall_mem_cons.mp hSecond.2).2⟩
      | cons next rows =>
          rw [glue_cons row rows' (List.cons_ne_nil next rows)]
          refine ⟨List.cons_ne_nil _ _, ?_⟩
          exact
            List.forall_mem_cons.mpr
              ⟨hRows.1, (ih (List.cons_ne_nil next rows) hRows.2).2⟩

theorem length_glue
    (hFirst : rows ≠ [])
    (hSecond : rows' ≠ []) :
    (glue (fun row row' => row ++ row') rows rows').length + 1 =
      rows.length + rows'.length := by
  induction rows with
  | nil => exact absurd rfl hFirst
  | cons row rows ih =>
      cases rows with
      | nil =>
          cases rows' with
          | nil => exact absurd rfl hSecond
          | cons row' rows' => simp [glue]; omega
      | cons next rows =>
          have hNext := ih (List.cons_ne_nil next rows)
          rw [glue_cons row rows' (List.cons_ne_nil next rows)]
          simp only [List.length_cons] at hNext ⊢
          omega

/- Rows in front of others stay as they are when these are glued. -/
theorem glue_append
    {before : List (List Condition)}
    (hSome : rows ≠ []) :
    glue (fun row row' => row ++ row') (before ++ rows) rows' =
      before ++ glue (fun row row' => row ++ row') rows rows' := by
  induction before with
  | nil => rfl
  | cons row before ih =>
      rw [List.cons_append, glue_cons, ih, List.cons_append]
      exact List.append_ne_nil_of_right_ne_nil before hSome

theorem rowsHold_append
    (truth : Predicate → Bool)
    (rows rows' : List (List Condition)) :
    rowsHold truth (rows ++ rows') =
      (rowsHold truth rows || rowsHold truth rows') :=
  List.any_append

namespace Outline

variable {o : Outline}
variable {os : List Outline}

theorem rowsFilled_outer
    (hFilled : RowsFilled o.rows) :
    RowsFilled o.outer := by
  rw [outer]
  split
  · exact hFilled
  · split <;> exact rowsFilled_singleton _

theorem rowsFilled_join
    (hFirst : RowsFilled rows)
    (hSecond : RowsFilled o.rows) :
    RowsFilled (join rows o) := by
  rw [join]
  split
  · exact hFirst.append (rowsFilled_outer hSecond)
  · exact hFirst.glue (rowsFilled_outer hSecond)

theorem rowsFilled_foldl
    (hFirst : RowsFilled rows)
    (hAll : ∀ o ∈ os, RowsFilled o.rows) :
    RowsFilled (os.foldl join rows) := by
  induction os generalizing rows with
  | nil => exact hFirst
  | cons o os ih =>
      rw [List.forall_mem_cons] at hAll
      exact ih (rowsFilled_join hFirst hAll.1) hAll.2

theorem rowsFilled_groupRows
    (hSome : os ≠ [])
    (hAll : ∀ o ∈ os, RowsFilled o.rows) :
    RowsFilled (groupRows os) := by
  rcases os with _ | ⟨first, _ | ⟨second, rest⟩⟩
  · exact absurd rfl hSome
  · exact rowsFilled_singleton _
  · rw [List.forall_mem_cons] at hAll
    exact rowsFilled_foldl (rowsFilled_outer hAll.1) hAll.2

------------------------------------------------------------
-- The Value of Rows
------------------------------------------------------------

/- NOT in front of rows turns their value round. -/
theorem rowsHold_outer
    (hFilled : RowsFilled o.rows) :
    rowsHold truth o.outer = (o.negated ^^ rowsHold truth o.rows) := by
  rw [outer]
  split
  · rename_i hPlain
    rw [hPlain, Bool.false_xor]
  · rename_i hNegated
    rw [Bool.not_eq_false] at hNegated
    rw [hNegated, ← holds_ofRows truth hFilled.1 hFilled.2]
    split <;> simp [rowsHold, holds_negatedIf, holds_enclosed]

/-
  OR stands between two neighbours, or no OR stands in the
  rows of either.
-/
def Linked
    (o o' : Outline) : Prop :=
  o'.connective = .or ∨ (o.outer.length = 1 ∧ o'.outer.length = 1)

/-
  The value of rows with others joined behind them, by
  induction on these. Where AND follows, both sides are one
  row, and the two become one.
-/
theorem rowsHold_foldl
    {first : Outline}
    (before : List (List Condition))
    (hChain : (first :: os).IsChain Linked) :
    rowsHold truth (os.foldl join (before ++ first.outer)) =
      (rowsHold truth before ||
        someHold (rowsHold truth first.outer)
          (os.map fun o => (o.connective, rowsHold truth o.outer))) := by
  induction os generalizing first before with
  | nil => exact rowsHold_append truth before first.outer
  | cons next os ih =>
      rw [List.isChain_cons_cons] at hChain
      rcases hChain with ⟨hLinked, hRest⟩
      rw [List.foldl_cons, List.map_cons, join]
      by_cases hOr : next.connective = .or
      · rw [if_pos hOr, ih _ hRest, hOr, someHold, rowsHold_append,
          Bool.or_assoc]
      · rcases hLinked.resolve_left hOr with ⟨hOne, hOne'⟩
        rcases List.length_eq_one_iff.mp hOne with ⟨row, hRow⟩
        rcases List.length_eq_one_iff.mp hOne' with ⟨row', hRow'⟩
        -- The row that both become goes on in place of the second.
        let both : Outline := ⟨false, true, .first, [row ++ row']⟩
        have hBoth : (both :: os).IsChain Linked :=
          hRest.imp_head fun h =>
            h.imp_right fun hOnes => ⟨rfl, hOnes.2⟩
        have hGlued :
            glue (fun row row' => row ++ row') (before ++ [row]) [row'] =
              before ++ both.outer :=
          glue_append (List.cons_ne_nil row [])
        have hSome :
            someHold (row.all (holds truth))
                ((next.connective, row'.all (holds truth)) ::
                  os.map fun o =>
                    (o.connective, rowsHold truth o.outer)) =
              someHold (rowsHold truth both.outer)
                (os.map fun o =>
                  (o.connective, rowsHold truth o.outer)) := by
          have hValue :
              rowsHold truth both.outer =
                (row.all (holds truth) && row'.all (holds truth)) := by
            simp [both, outer, rowsHold]
          rw [hValue]
          cases hNext : next.connective with
          | or => exact absurd hNext hOr
          | first => rfl
          | and => rfl
        rw [if_neg hOr, hRow, hRow', hGlued, ih _ hBoth]
        simp only [rowsHold, List.any_cons, List.any_nil, Bool.or_false]
          at hSome ⊢
        rw [hSome]

/- Conditions that are linked have the value of their group. -/
theorem rowsHold_groupRows
    (hSome : os ≠ [])
    (hFilled : ∀ o ∈ os, RowsFilled o.rows)
    (hChain : os.IsChain Linked) :
    rowsHold truth (groupRows os) =
      groupHolds
        (os.map fun o => (o.connective, rowsHold truth o.outer)) := by
  rcases os with _ | ⟨first, _ | ⟨second, rest⟩⟩
  · exact absurd rfl hSome
  · have hFirst := hFilled first List.mem_cons_self
    rw [List.map_singleton, groupHolds, someHold, rowsHold_outer hFirst,
      ← holds_ofRows truth hFirst.1 hFirst.2]
    simp [groupRows, rowsHold, holds_enclosed, holds_negatedIf]
  · exact rowsHold_foldl [] hChain

------------------------------------------------------------
-- Rows That Are One
------------------------------------------------------------

theorem length_join_eq_one_iff
    (hFirst : RowsFilled rows)
    (hSecond : RowsFilled o.rows) :
    (join rows o).length = 1 ↔
      rows.length = 1 ∧ o.connective ≠ .or ∧ o.outer.length = 1 := by
  have hOuter := (rowsFilled_outer hSecond).1
  have hPos := List.length_pos_iff.mpr hFirst.1
  have hPos' := List.length_pos_iff.mpr hOuter
  rw [join]
  split
  · rename_i hOr
    rw [List.length_append]
    constructor
    · omega
    · exact fun h => absurd hOr h.2.1
  · rename_i hAnd
    have hLength := length_glue hFirst.1 hOuter
    rw [and_iff_right hAnd]
    omega

theorem length_foldl_eq_one_iff
    (hFirst : RowsFilled rows)
    (hAll : ∀ o ∈ os, RowsFilled o.rows) :
    (os.foldl join rows).length = 1 ↔
      rows.length = 1 ∧
        ∀ o ∈ os, o.connective ≠ .or ∧ o.outer.length = 1 := by
  induction os generalizing rows with
  | nil => simp
  | cons o os ih =>
      rw [List.forall_mem_cons] at hAll
      rw [List.foldl_cons, ih (rowsFilled_join hFirst hAll.1) hAll.2,
        length_join_eq_one_iff hFirst hAll.1, List.forall_mem_cons,
        and_assoc]

/- Several conditions are one row if each is, with AND between. -/
theorem length_groupRows_eq_one_iff
    (hSeveral : 2 ≤ os.length)
    (hAll : ∀ o ∈ os, RowsFilled o.rows) :
    (groupRows os).length = 1 ↔
      (∀ o ∈ os, o.outer.length = 1) ∧
        ∀ o ∈ os.tail, o.connective ≠ .or := by
  rcases os with _ | ⟨first, _ | ⟨second, rest⟩⟩
  · exact absurd hSeveral (by simp)
  · exact absurd hSeveral (by simp)
  · rw [List.forall_mem_cons] at hAll
    rw [groupRows,
      length_foldl_eq_one_iff (rowsFilled_outer hAll.1) hAll.2]
    · constructor
      · rintro ⟨hFirst, hRest⟩
        exact
          ⟨List.forall_mem_cons.mpr
              ⟨hFirst, fun o hMem => (hRest o hMem).2⟩,
            fun o hMem => (hRest o hMem).1⟩
      · rintro ⟨hOnes, hAnds⟩
        exact
          ⟨hOnes first List.mem_cons_self,
            fun o hMem =>
              ⟨hAnds o hMem, hOnes o (List.mem_cons_of_mem first hMem)⟩⟩
    · simp

end Outline

------------------------------------------------------------
-- The Value of Trees
------------------------------------------------------------

namespace Condition

variable {read : Predicate → Predicate}
variable {c : Condition}
variable {cs : List Condition}

theorem guardsOr_group
    {negated : Bool}
    {connective : Connective} :
    (group negated connective cs).GuardsOr ↔
      cs.IsChain IsGuarded ∧ ∀ c ∈ cs, c.GuardsOr :=
  forall_groups_group

theorem anyShowsOr_eq
    (cs : List Condition) :
    anyShowsOr cs = cs.any showsOr := by
  induction cs with
  | nil => rfl
  | cons c cs ih => rw [anyShowsOr, ih, List.any_cons]

/- The outline of a tree with a condition in every group is filled. -/
theorem rowsFilled_outline
    (c : Condition)
    (hFilled : c.IsFilled) :
    RowsFilled (outline read c).rows := by
  induction c using induct with
  | atom negated connective p => exact rowsFilled_singleton _
  | group negated connective cs ih =>
      rcases isFilled_group.mp hFilled with ⟨hSome, hAll⟩
      rw [outline, outlines_eq]
      refine Outline.rowsFilled_groupRows (by simpa using hSome) ?_
      exact List.forall_mem_map.mpr fun c hMem => ih c hMem (hAll c hMem)

theorem showsOr_group
    {connective : Connective}
    (hSeveral : 2 ≤ cs.length) :
    (group false connective cs).showsOr = false ↔
      (∀ c ∈ cs, c.showsOr = false) ∧
        ∀ c ∈ cs.tail, c.connective ≠ .or := by
  rw [showsOr, anyShowsOr_eq]
  simp only [hSeveral, decide_true, Bool.not_false, Bool.true_and,
    Bool.or_eq_false_iff, List.any_eq_false, beq_iff_eq,
    Bool.not_eq_true]
  exact and_comm

/-
  A tree in writing is a single row unless it is written with
  OR in it that stands in no parentheses.
-/
theorem length_outer_eq_one_iff
    (c : Condition)
    (hFilled : c.IsFilled) :
    (outline read c).outer.length = 1 ↔ c.showsOr = false := by
  induction c using induct with
  | atom negated connective p =>
      refine iff_of_true ?_ rfl
      cases negated <;> rfl
  | group negated connective cs ih =>
      rcases isFilled_group.mp hFilled with ⟨hSome, hAll⟩
      cases negated with
      | true => exact iff_of_true rfl rfl
      | false =>
          have hOuter :
              (outline read (group false connective cs)).outer =
                Outline.groupRows (cs.map (outline read)) := by
            rw [← outlines_eq]
            rfl
          rw [hOuter]
          by_cases hSeveral : 2 ≤ cs.length
          · have hRows :
                ∀ o ∈ cs.map (outline read), RowsFilled o.rows :=
              List.forall_mem_map.mpr fun c hMem =>
                rowsFilled_outline c (hAll c hMem)
            rw [showsOr_group hSeveral,
              Outline.length_groupRows_eq_one_iff (by simpa using hSeveral)
                hRows,
              List.forall_mem_map, ← List.map_tail, List.forall_mem_map]
            refine and_congr (forall₂_congr fun c hMem => ?_) ?_
            · exact ih c hMem (hAll c hMem)
            · simp only [connective_outline]
          · have hPos := List.length_pos_iff.mpr hSome
            rcases List.length_eq_one_iff.mp (by omega : cs.length = 1)
              with ⟨only, rfl⟩
            exact iff_of_true rfl rfl

/- Neighbours that are guarded are linked in the outlines. -/
theorem isChain_outlines_iff
    (hAll : ∀ c ∈ cs, c.IsFilled) :
    (cs.map (outline read)).IsChain Outline.Linked ↔
      cs.IsChain IsGuarded := by
  rw [List.isChain_map]
  refine List.IsChain.iff_of_mem_imp fun c d hMem hMem' => ?_
  rw [Outline.Linked, IsGuarded, connective_outline,
    length_outer_eq_one_iff c (hAll c hMem),
    length_outer_eq_one_iff d (hAll d hMem')]

/-
  The rows of a group have the value of it as a list of
  outlines, where AND stands next to no open OR.
-/
theorem rowsHold_outlines
    (hSome : cs ≠ [])
    (hAll : ∀ c ∈ cs, c.IsFilled)
    (hChain : cs.IsChain IsGuarded) :
    rowsHold truth (Outline.groupRows (outlines read cs)) =
      groupHolds
        (cs.map fun c =>
          (c.connective, rowsHold truth (outline read c).outer)) := by
  rw [outlines_eq,
    Outline.rowsHold_groupRows (by simpa using hSome)
      (List.forall_mem_map.mpr fun c hMem =>
        rowsFilled_outline c (hAll c hMem))
      ((isChain_outlines_iff hAll).mpr hChain),
    List.map_map]
  simp only [Function.comp_def, connective_outline]

/-
  What is read of the text of a tree has the value of the
  tree, by induction on the tree.
-/
theorem rowsHold_outline
    (c : Condition)
    (hFilled : c.IsFilled)
    (hGuards : c.GuardsOr) :
    rowsHold truth (outline read c).outer =
      c.holds fun p => truth (read p) := by
  induction c using induct with
  | atom negated connective p =>
      cases negated <;>
        simp [outline, Outline.outer, ofRows, joinAll, negatedIf,
          rowsHold, holds]
  | group negated connective cs ih =>
      rcases isFilled_group.mp hFilled with ⟨hSome, hAll⟩
      rcases guardsOr_group.mp hGuards with ⟨hChain, hGuardsAll⟩
      have hChildren :
          cs.map (fun c =>
              (c.connective, rowsHold truth (outline read c).outer)) =
            values (fun p => truth (read p)) cs := by
        rw [values_eq]
        refine List.map_congr_left fun c hMem => ?_
        rw [ih c hMem (hAll c hMem) (hGuardsAll c hMem)]
      rw [Outline.rowsHold_outer (rowsFilled_outline _ hFilled), outline,
        rowsHold_outlines hSome hAll hChain, hChildren, holds]

end Condition

end SqlSelect
