import SqlSelect.Proofs.Condition.Guarding

/-
  Assignments of truth values to the predicates of a tree. The
  value of a tree and the values of what its text is read as
  depend on its own predicates only. If no predicate stands
  twice, every condition of a group can be given a value of
  its own, and its text the same.

  Main statements:
    * `Condition.rowPredicates_outline`
    * `Condition.holds_congr`
    * `Demand.exists_meets`
    * `Demand.exists_uniform`
    * `Demand.exists_differs_among`
-/

namespace SqlSelect

open Condition

variable {rows : List (List Condition)}
variable {truth truth' : Predicate → Bool}
variable {read : Predicate → Predicate}

------------------------------------------------------------
-- Units of an Outline
------------------------------------------------------------

namespace Outline

variable {o : Outline}
variable {os : List Outline}

theorem flatten_join
    (rows : List (List Condition))
    (o : Outline) :
    (join rows o).flatten = rows.flatten ++ o.outer.flatten := by
  rw [join]
  split
  · exact List.flatten_append
  · exact flatten_glue rows o.outer

theorem flatten_foldl
    (rows : List (List Condition))
    (os : List Outline) :
    (os.foldl join rows).flatten =
      rows.flatten ++ os.flatMap fun o => o.outer.flatten := by
  induction os generalizing rows with
  | nil => simp
  | cons o os ih => simp [ih, flatten_join]

theorem groupRows_cons
    (first : Outline)
    (hSome : os ≠ []) :
    groupRows (first :: os) = os.foldl join first.outer := by
  cases os with
  | nil => exact absurd rfl hSome
  | cons o os => rfl

/- The units of several conditions are those of each in turn. -/
theorem flatten_groupRows
    (hSeveral : 2 ≤ os.length) :
    (groupRows os).flatten = os.flatMap fun o => o.outer.flatten := by
  rcases os with _ | ⟨first, _ | ⟨second, rest⟩⟩
  · exact absurd hSeveral (by simp)
  · exact absurd hSeveral (by simp)
  · exact flatten_foldl first.outer (second :: rest)

end Outline

------------------------------------------------------------
-- Predicates of an Outline
------------------------------------------------------------

/- The predicates in rows, from left to right. -/
def rowPredicates
    (rows : List (List Condition)) : List Predicate :=
  rows.flatten.flatMap predicates

namespace Outline

theorem rowPredicates_outer
    (o : Outline) :
    rowPredicates o.outer = rowPredicates o.rows := by
  have hNegated (c : Condition) :
      (c.negatedIf true).predicates = c.predicates := by
    cases c <;> rfl
  have hRows : rowPredicates o.rows = (ofRows o.rows).predicates :=
    (predicates_ofRows o.rows).symm
  rw [outer]
  split
  · rfl
  · rw [hRows]
    split
    · simp [rowPredicates, hNegated]
    · simp [rowPredicates, predicates_enclosed]

theorem rowPredicates_groupRows
    (os : List Outline) :
    rowPredicates (groupRows os) =
      os.flatMap fun o => rowPredicates o.rows := by
  rcases os with _ | ⟨first, _ | ⟨second, rest⟩⟩
  · rfl
  · rw [groupRows, rowPredicates]
    simp [predicates_enclosed, predicates_ofRows, rowPredicates]
  · rw [rowPredicates, flatten_groupRows (by simp), List.flatMap_assoc]
    exact List.flatMap_congr fun o _ => rowPredicates_outer o

end Outline

namespace Condition

variable {c : Condition}
variable {cs : List Condition}

/- Where no predicate stands twice, none does in any condition. -/
theorem nodup_of_mem
    (hNodup : ((predicatesOf cs).map read).Nodup)
    (hMem : c ∈ cs) :
    (c.predicates.map read).Nodup := by
  rw [predicatesOf_eq, List.map_flatMap, List.nodup_flatMap] at hNodup
  exact hNodup.1 c hMem

/- The outline of a tree has the predicates of the tree, read. -/
theorem rowPredicates_outline
    (c : Condition) :
    rowPredicates (outline read c).rows = c.predicates.map read := by
  induction c using induct with
  | atom negated connective p => rfl
  | group negated connective cs ih =>
      rw [outline, outlines_eq, Outline.rowPredicates_groupRows,
        predicates, predicatesOf_eq, List.map_flatMap, List.flatMap_map]
      exact List.flatMap_congr ih

/- The predicates of a unit are those of the tree it is read of. -/
theorem mem_predicates_of_unit
    {u : Condition}
    {p : Predicate}
    (hUnit : u ∈ (outline read c).outer.flatten)
    (hMem : p ∈ u.predicates) :
    p ∈ c.predicates.map read := by
  rw [← rowPredicates_outline c, ← Outline.rowPredicates_outer]
  exact List.mem_flatMap.mpr ⟨u, hUnit, hMem⟩

/- The value of a tree depends on its predicates only. -/
theorem holds_congr
    (c : Condition)
    (hSame : ∀ p ∈ c.predicates, truth p = truth' p) :
    c.holds truth = c.holds truth' := by
  induction c using induct with
  | atom negated connective p =>
      rw [holds, holds, hSame p List.mem_cons_self]
  | group negated connective cs ih =>
      have hValues : values truth cs = values truth' cs := by
        rw [values_eq, values_eq]
        refine List.map_congr_left fun c hMem => ?_
        rw [ih c hMem fun p hIn =>
          hSame p (mem_predicatesOf.mpr ⟨c, hMem, hIn⟩)]
      rw [holds, holds, hValues]

theorem rowsHold_eq_true_iff :
    rowsHold truth rows = true ↔
      ∃ row ∈ rows, ∀ u ∈ row, u.holds truth = true := by
  simp [rowsHold]

theorem rowsHold_congr
    (hSame :
      ∀ u ∈ rows.flatten, u.holds truth = u.holds truth') :
    rowsHold truth rows = rowsHold truth' rows := by
  rw [Bool.eq_iff_iff, rowsHold_eq_true_iff, rowsHold_eq_true_iff]
  refine exists_congr fun row => and_congr_right fun hRow => ?_
  refine forall₂_congr fun u hUnit => ?_
  rw [hSame u (List.mem_flatten.mpr ⟨row, hRow, hUnit⟩)]

/- Rows whose units have one value have that value. -/
theorem rowsHold_of_uniform
    {b : Bool}
    (hFilled : RowsFilled rows)
    (hUniform : ∀ u ∈ rows.flatten, u.holds truth = b) :
    rowsHold truth rows = b := by
  have hUnits (row : List Condition) (hRow : row ∈ rows) :
      ∀ u ∈ row, u.holds truth = b :=
    fun u hUnit => hUniform u (List.mem_flatten.mpr ⟨row, hRow, hUnit⟩)
  cases b with
  | true =>
      rcases List.exists_mem_of_ne_nil rows hFilled.1 with ⟨row, hRow⟩
      exact rowsHold_eq_true_iff.mpr ⟨row, hRow, hUnits row hRow⟩
  | false =>
      rw [← Bool.not_eq_true, rowsHold_eq_true_iff]
      rintro ⟨row, hRow, hAll⟩
      rcases List.exists_mem_of_ne_nil row (hFilled.2 row hRow)
        with ⟨u, hUnit⟩
      exact absurd (hAll u hUnit) (by simp [hUnits row hRow u hUnit])

end Condition

------------------------------------------------------------
-- Demands on Assignments
------------------------------------------------------------

/-
  What an assignment is to meet, which depends only on the
  values that it gives to some predicates.
-/
structure Demand where
  predicates : List Predicate
  Meets : (Predicate → Bool) → Prop
  congr :
    ∀ truth truth',
      (∀ p ∈ predicates, truth p = truth' p) →
        Meets truth → Meets truth'

namespace Demand

/-
  Demands on predicates of their own are met together when
  each of them can be met, by induction on the demands.
-/
theorem exists_meets
    (demands : List Demand)
    (hNodup : (demands.flatMap Demand.predicates).Nodup)
    (hEach : ∀ d ∈ demands, ∃ truth, d.Meets truth) :
    ∃ truth, ∀ d ∈ demands, d.Meets truth := by
  induction demands with
  | nil => exact ⟨fun _ => false, by simp⟩
  | cons d demands ih =>
      rw [List.flatMap_cons, List.nodup_append] at hNodup
      rw [List.forall_mem_cons] at hEach
      rcases hNodup with ⟨-, hRest, hApart⟩
      rcases hEach with ⟨⟨first, hFirst⟩, hOthers⟩
      rcases ih hRest hOthers with ⟨others, hMeets⟩
      refine
        ⟨fun p => if p ∈ d.predicates then first p else others p,
          List.forall_mem_cons.mpr ⟨?_, fun e hMem => ?_⟩⟩
      · exact d.congr _ _ (fun p hIn => (if_pos hIn).symm) hFirst
      · refine e.congr _ _ (fun p hIn => (if_neg ?_).symm) (hMeets e hMem)
        intro hBoth
        exact
          hApart p hBoth p (List.mem_flatMap.mpr ⟨e, hMem, hIn⟩) rfl

/-
  The tree and every unit that is read of its text are to have
  the value given.
-/
def uniform
    (read : Predicate → Predicate)
    (c : Condition)
    (b : Bool) : Demand where
  predicates := c.predicates.map read
  Meets truth :=
    (∀ u ∈ (outline read c).outer.flatten, u.holds truth = b) ∧
      (c.holds fun p => truth (read p)) = b
  congr := by
    rintro truth truth' hSame ⟨hUnits, hValue⟩
    refine ⟨fun u hUnit => ?_, ?_⟩
    · rw [← hUnits u hUnit]
      exact
        (holds_congr u fun p hMem =>
          hSame p (mem_predicates_of_unit hUnit hMem)).symm
    · rw [← hValue]
      exact
        (holds_congr c fun p hMem =>
          hSame (read p) (List.mem_map_of_mem hMem)).symm

/- The text is to be read with another value than the tree has. -/
def differs
    (read : Predicate → Predicate)
    (c : Condition) : Demand where
  predicates := c.predicates.map read
  Meets truth :=
    rowsHold truth (outline read c).outer ≠
      c.holds fun p => truth (read p)
  congr := by
    intro truth truth' hSame hDiffer
    have hRows :
        rowsHold truth (outline read c).outer =
          rowsHold truth' (outline read c).outer :=
      rowsHold_congr fun u hUnit =>
        holds_congr u fun p hMem =>
          hSame p (mem_predicates_of_unit hUnit hMem)
    have hTree :
        (c.holds fun p => truth (read p)) =
          c.holds fun p => truth' (read p) :=
      holds_congr c fun p hMem =>
        hSame (read p) (List.mem_map_of_mem hMem)
    rw [← hRows, ← hTree]
    exact hDiffer

variable {c : Condition}

/- Where all units have one value, the text has that value. -/
theorem rowsHold_of_meets_uniform
    {b : Bool}
    (hFilled : c.IsFilled)
    (hMeets : (uniform read c b).Meets truth) :
    rowsHold truth (outline read c).outer = b :=
  rowsHold_of_uniform
    (Outline.rowsFilled_outer (rowsFilled_outline c hFilled)) hMeets.1

/- The demands on some trees that each have a value of their own. -/
theorem exists_uniform_all
    {marks : List (Condition × Bool)}
    (hNodup :
      ((predicatesOf (marks.map Prod.fst)).map read).Nodup)
    (hEach :
      ∀ m ∈ marks, ∃ truth, (uniform read m.1 m.2).Meets truth) :
    ∃ truth, ∀ m ∈ marks, (uniform read m.1 m.2).Meets truth := by
  have hAll :=
    exists_meets (marks.map fun m => uniform read m.1 m.2)
      (by
        rw [predicatesOf_eq, List.map_flatMap, List.flatMap_map]
          at hNodup
        rw [List.flatMap_map]
        exact hNodup)
      (List.forall_mem_map.mpr hEach)
  rcases hAll with ⟨truth, hMeets⟩
  exact ⟨truth, List.forall_mem_map.mp hMeets⟩

end Demand

------------------------------------------------------------
-- Values That Are Attained
------------------------------------------------------------

namespace Outline

variable {o : Outline}
variable {os : List Outline}
variable {b : Bool}

/- Units of one value, with NOT in front of them or without. -/
theorem uniform_outer
    (hFilled : RowsFilled o.rows)
    (hUniform :
      ∀ u ∈ o.rows.flatten, u.holds truth = (o.negated ^^ b)) :
    ∀ u ∈ o.outer.flatten, u.holds truth = b := by
  have hRows := rowsHold_of_uniform hFilled hUniform
  have hOuter : rowsHold truth o.outer = b := by
    rw [rowsHold_outer hFilled, hRows]
    exact Bool.bne_self_left o.negated b
  rw [outer] at hOuter ⊢
  split
  · rename_i hPlain
    simpa [hPlain] using hUniform
  · rename_i hNegated
    rw [if_neg hNegated] at hOuter
    split <;> simpa [rowsHold, *] using hOuter

/- Units of one value in a group. -/
theorem uniform_groupRows
    (hAll :
      ∀ o ∈ os,
        RowsFilled o.rows ∧
          ∀ u ∈ o.outer.flatten, u.holds truth = b) :
    ∀ u ∈ (groupRows os).flatten, u.holds truth = b := by
  rcases os with _ | ⟨first, _ | ⟨second, rest⟩⟩
  · exact fun u hMem => absurd hMem List.not_mem_nil
  · rcases hAll first List.mem_cons_self with ⟨hFilled, hUniform⟩
    have hValue :=
      rowsHold_of_uniform (rowsFilled_outer hFilled) hUniform
    rw [rowsHold_outer hFilled,
      ← holds_ofRows truth hFilled.1 hFilled.2] at hValue
    simpa [groupRows, holds_enclosed, holds_negatedIf] using hValue
  · rw [flatten_groupRows (by simp)]
    intro u hMem
    rcases List.mem_flatMap.mp hMem with ⟨o, hIn, hUnit⟩
    exact (hAll o hIn).2 u hUnit

end Outline

namespace Condition

/- Some trees, each with the same value. -/
def marked
    (b : Bool)
    (cs : List Condition) : List (Condition × Bool) :=
  cs.map fun c => (c, b)

@[simp]
theorem map_fst_marked
    (b : Bool)
    (cs : List Condition) :
    (marked b cs).map Prod.fst = cs := by
  simp [marked, Function.comp_def]

theorem mem_marked
    {b : Bool}
    {m : Condition × Bool} :
    m ∈ marked b cs ↔ m.1 ∈ cs ∧ m.2 = b := by
  simp only [marked, List.mem_map, Prod.ext_iff]
  exact
    ⟨fun ⟨_, hMem, hSame, hValue⟩ => ⟨hSame ▸ hMem, hValue.symm⟩,
      fun ⟨hMem, hValue⟩ => ⟨m.1, hMem, rfl, hValue.symm⟩⟩

/- Values that are all the same make a group of that value. -/
theorem someHold_of_uniform
    {b : Bool}
    {entries : List (Connective × Bool)}
    (hAll : ∀ e ∈ entries, e.2 = b) :
    someHold b entries = b := by
  induction entries with
  | nil => rfl
  | cons e entries ih =>
      rw [List.forall_mem_cons] at hAll
      rcases e with ⟨connective, value⟩
      rcases hAll with ⟨rfl, hRest⟩
      cases connective <;> simp [someHold, ih hRest]

theorem groupHolds_of_uniform
    {b : Bool}
    {entries : List (Connective × Bool)}
    (hSome : entries ≠ [])
    (hAll : ∀ e ∈ entries, e.2 = b) :
    groupHolds entries = b := by
  cases entries with
  | nil => exact absurd rfl hSome
  | cons e entries =>
      rw [List.forall_mem_cons] at hAll
      rw [groupHolds, hAll.1]
      exact someHold_of_uniform hAll.2

end Condition

namespace Demand

/-
  A tree in which no predicate stands twice, and its text, can
  be given either value, by induction on the tree.
-/
theorem exists_uniform
    (c : Condition)
    (hFilled : c.IsFilled)
    (hNodup : (c.predicates.map read).Nodup)
    (b : Bool) :
    ∃ truth, (uniform read c b).Meets truth := by
  induction c using induct generalizing b with
  | atom negated connective p =>
      refine ⟨fun _ => negated ^^ b, ?_, ?_⟩
      · cases negated <;>
          simp [outline, Outline.outer, ofRows, joinAll, negatedIf,
            holds]
      · exact Bool.bne_self_left negated b
  | group negated connective cs ih =>
      rcases isFilled_group.mp hFilled with ⟨hSome, hAll⟩
      rw [Condition.predicates] at hNodup
      have hDistinct :
          ((predicatesOf
            ((marked (negated ^^ b) cs).map Prod.fst)).map read).Nodup := by
        rw [map_fst_marked]
        exact hNodup
      have hEach :
          ∀ m ∈ marked (negated ^^ b) cs,
            ∃ truth, (uniform read m.1 m.2).Meets truth :=
        List.forall_mem_map.mpr fun c hMem =>
          ih c hMem (hAll c hMem) (nodup_of_mem hNodup hMem) _
      rcases exists_uniform_all hDistinct hEach with ⟨truth, hMeets⟩
      rw [marked, List.forall_mem_map] at hMeets
      refine ⟨truth, ?_, ?_⟩
      · refine
          Outline.uniform_outer (rowsFilled_outline _ hFilled) ?_
        rw [outline, outlines_eq]
        refine
          Outline.uniform_groupRows
            (List.forall_mem_map.mpr fun c hMem => ?_)
        exact ⟨rowsFilled_outline c (hAll c hMem), (hMeets c hMem).1⟩
      · have hGroup :
            groupHolds (values (fun p => truth (read p)) cs) =
              (negated ^^ b) := by
          rw [values_eq]
          refine groupHolds_of_uniform (by simpa using hSome) ?_
          exact List.forall_mem_map.mpr fun c hMem => (hMeets c hMem).2
        rw [holds, hGroup]
        exact Bool.bne_self_left negated b

/-
  A demand that a tree differs from its text, next to demands
  on the other trees of a list.
-/
theorem exists_differs_among
    {marks marks' : List (Condition × Bool)}
    (hAll :
      ∀ d ∈ marks.map Prod.fst ++ c :: marks'.map Prod.fst, d.IsFilled)
    (hNodup :
      ((predicatesOf
        (marks.map Prod.fst ++ c :: marks'.map Prod.fst)).map
          read).Nodup)
    (hDiffers : ∃ truth, (differs read c).Meets truth) :
    ∃ truth,
      (∀ m ∈ marks, (uniform read m.1 m.2).Meets truth) ∧
        (∀ m ∈ marks', (uniform read m.1 m.2).Meets truth) ∧
        (differs read c).Meets truth := by
  let demand : Condition × Bool → Demand :=
    fun m => uniform read m.1 m.2
  have hEach
      (m : Condition × Bool)
      (hIn : m.1 ∈ marks.map Prod.fst ++ c :: marks'.map Prod.fst) :
      ∃ truth, (demand m).Meets truth :=
    exists_uniform m.1 (hAll m.1 hIn) (nodup_of_mem hNodup hIn) m.2
  have hDistinct :
      ((marks.map demand ++
          differs read c :: marks'.map demand).flatMap
        Demand.predicates).Nodup := by
    rw [predicatesOf_eq, List.map_flatMap, List.flatMap_append,
      List.flatMap_cons, List.flatMap_map, List.flatMap_map] at hNodup
    rw [List.flatMap_append, List.flatMap_cons, List.flatMap_map,
      List.flatMap_map]
    exact hNodup
  have hMet :
      ∀ d ∈ marks.map demand ++ differs read c :: marks'.map demand,
        ∃ truth, d.Meets truth := by
    simp only [List.forall_mem_append, List.forall_mem_cons,
      List.forall_mem_map]
    refine ⟨fun m hMem => hEach m ?_, hDiffers, fun m hMem => hEach m ?_⟩
    · exact List.mem_append_left _ (List.mem_map_of_mem hMem)
    · exact
        List.mem_append_right _
          (List.mem_cons_of_mem c (List.mem_map_of_mem hMem))
  rcases exists_meets _ hDistinct hMet with ⟨truth, hMeets⟩
  simp only [List.forall_mem_append, List.forall_mem_cons,
    List.forall_mem_map] at hMeets
  exact ⟨truth, hMeets.1, hMeets.2.2, hMeets.2.1⟩

end Demand

end SqlSelect
