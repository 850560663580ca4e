import SqlSelect.Proofs.Condition.Assignment

/-
  Trees whose text means something else. Where AND is written
  next to an OR without parentheses, it takes a part of the
  condition that the OR is in, and some assignment tells the
  tree from what its text is read as. So a text has the value
  of its tree exactly if no AND stands next to such an OR.

  Main statements:
    * `Outline.rowsHold_groupRows_behind`
    * `Outline.rowsHold_groupRows_front`
    * `Condition.exists_marks`
    * `Condition.exists_differs`
    * `Condition.holds_written_iff_guardsOr`
    * `Condition.not_forall_holds_written`
-/

namespace SqlSelect

open Condition

variable {rows : List (List Condition)}
variable {truth : Predicate → Bool}
variable {read : Predicate → Predicate}

------------------------------------------------------------
-- Rows That Hold
------------------------------------------------------------

namespace Outline

variable {o : Outline}
variable {os : List Outline}

/- A row holds that nothing further is joined with. -/
def HeldBefore
    (truth : Predicate → Bool)
    (rows : List (List Condition)) : Prop :=
  ∃ before behind,
    rows = before ++ behind ∧ behind ≠ [] ∧
      rowsHold truth before = true

theorem HeldBefore.rowsHold
    (hHeld : HeldBefore truth rows) :
    rowsHold truth rows = true := by
  rcases hHeld with ⟨before, behind, rfl, -, hRow⟩
  rw [rowsHold_append, hRow, Bool.true_or]

theorem HeldBefore.join
    (hHeld : HeldBefore truth rows)
    (hFilled : RowsFilled o.rows) :
    HeldBefore truth (join rows o) := by
  rcases hHeld with ⟨before, behind, rfl, hSome, hRow⟩
  rw [Outline.join]
  split
  · exact
      ⟨before, behind ++ o.outer, List.append_assoc _ _ _,
        List.append_ne_nil_of_left_ne_nil hSome _, hRow⟩
  · refine ⟨before, _, glue_append hSome, ?_, hRow⟩
    intro hNil
    have hLength := length_glue hSome (rowsFilled_outer hFilled).1
    have hPos := List.length_pos_iff.mpr hSome
    have hPos' := List.length_pos_iff.mpr (rowsFilled_outer hFilled).1
    rw [hNil, List.length_nil] at hLength
    omega

theorem HeldBefore.foldl
    (hHeld : HeldBefore truth rows)
    (hAll : ∀ o ∈ os, RowsFilled o.rows) :
    HeldBefore truth (os.foldl Outline.join rows) := by
  induction os generalizing rows with
  | nil => exact hHeld
  | cons o os ih =>
      rw [List.forall_mem_cons] at hAll
      exact ih (hHeld.join hAll.1) hAll.2

/- Rows that hold stay as they are where OR follows. -/
theorem heldBefore_join_or
    (hRows : rowsHold truth rows = true)
    (hOr : o.connective = .or)
    (hFilled : RowsFilled o.rows) :
    HeldBefore truth (join rows o) := by
  rw [join, if_pos hOr]
  exact ⟨rows, o.outer, rfl, (rowsFilled_outer hFilled).1, hRows⟩

/- Several rows that hold, behind OR or first of all. -/
theorem heldBefore_append
    (before : List (List Condition))
    (hSeveral : o.outer.length ≠ 1)
    (hFilled : RowsFilled o.rows)
    (hTrue : ∀ u ∈ o.outer.flatten, u.holds truth = true) :
    HeldBefore truth (before ++ o.outer) := by
  have hSome := (rowsFilled_outer hFilled).1
  rcases hOuter : o.outer with _ | ⟨row, _ | ⟨next, rest⟩⟩
  · exact absurd hOuter hSome
  · exact absurd (by rw [hOuter]; rfl) hSeveral
  · refine
      ⟨before ++ [row], next :: rest, by simp, List.cons_ne_nil _ _, ?_⟩
    rw [rowsHold_append, Bool.or_eq_true]
    refine .inr (rowsHold_eq_true_iff.mpr ⟨row, by simp, ?_⟩)
    intro u hUnit
    exact hTrue u (by simp [hOuter, hUnit])

/- What AND makes of rows: the last and the first become one. -/
theorem exists_join_and
    (hSome : rows ≠ [])
    (hAnd : o.connective ≠ .or)
    (hFilled : RowsFilled o.rows) :
    ∃ before last row rest,
      rows = before ++ [last] ∧ o.outer = row :: rest ∧
        join rows o = before ++ (last ++ row) :: rest := by
  rcases List.eq_nil_or_concat rows with rfl | ⟨before, last, rfl⟩
  · exact absurd rfl hSome
  · rcases List.exists_cons_of_ne_nil (rowsFilled_outer hFilled).1
      with ⟨row, rest, hOuter⟩
    refine ⟨before, last, row, rest, by simp, hOuter, ?_⟩
    rw [join, if_neg hAnd, hOuter, List.concat_eq_append,
      glue_append (List.cons_ne_nil last [])]
    rfl

/- Rows that hold still do where AND follows with what holds. -/
theorem rowsHold_join_and
    (hRows : rowsHold truth rows = true)
    (hAnd : o.connective ≠ .or)
    (hFilled : RowsFilled o.rows)
    (hTrue : ∀ u ∈ o.outer.flatten, u.holds truth = true) :
    rowsHold truth (join rows o) = true := by
  have hSome : rows ≠ [] := by
    rintro rfl
    exact absurd hRows (by simp [rowsHold])
  rcases exists_join_and hSome hAnd hFilled
    with ⟨before, last, row, rest, rfl, hOuter, hJoin⟩
  rw [rowsHold_eq_true_iff] at hRows
  rcases hRows with ⟨held, hMem, hHeld⟩
  rw [hJoin, rowsHold_eq_true_iff]
  rcases List.mem_append.mp hMem with hBefore | hLast
  · exact ⟨held, List.mem_append_left _ hBefore, hHeld⟩
  · rw [List.mem_singleton] at hLast
    subst hLast
    refine ⟨held ++ row, by simp, fun u hUnit => ?_⟩
    rcases List.mem_append.mp hUnit with hUnit | hUnit
    · exact hHeld u hUnit
    · exact hTrue u (by simp [hOuter, hUnit])

/- AND takes the first of several rows, and another one holds. -/
theorem rowsHold_join_several
    (hSome : rows ≠ [])
    (hAnd : o.connective ≠ .or)
    (hSeveral : o.outer.length ≠ 1)
    (hFilled : RowsFilled o.rows)
    (hTrue : ∀ u ∈ o.outer.flatten, u.holds truth = true) :
    rowsHold truth (join rows o) = true := by
  rcases exists_join_and hSome hAnd hFilled
    with ⟨before, last, row, rest, rfl, hOuter, hJoin⟩
  rcases rest with _ | ⟨next, rest⟩
  · exact absurd (by rw [hOuter]; rfl) hSeveral
  · rw [hJoin, rowsHold_eq_true_iff]
    refine ⟨next, by simp, fun u hUnit => ?_⟩
    exact hTrue u (by simp [hOuter, hUnit])

variable {first : Outline}
variable {before lead tail behind : List Outline}

/-
  With AND in front of several rows, the text holds where they
  do, whatever stands in front.
-/
theorem rowsHold_groupRows_behind
    (hAll :
      ∀ x ∈ first :: (before ++ o :: (lead ++ tail)),
        RowsFilled x.rows)
    (hAnd : o.connective ≠ .or)
    (hSeveral : o.outer.length ≠ 1)
    (hLead : ∀ x ∈ lead, x.connective ≠ .or)
    (hTail : ∀ x ∈ tail.head?, x.connective = .or)
    (hTrue :
      ∀ x ∈ o :: lead, ∀ u ∈ x.outer.flatten, u.holds truth = true) :
    rowsHold truth
        (groupRows (first :: (before ++ o :: (lead ++ tail)))) =
      true := by
  simp only [List.forall_mem_cons, List.forall_mem_append]
    at hAll hTrue
  rcases hAll with ⟨hFirst, hBefore, hFilled, hFilledLead, hFilledTail⟩
  rcases hTrue with ⟨hHolds, hHoldsLead⟩
  rw [groupRows_cons first (by simp), List.foldl_append,
    List.foldl_cons, List.foldl_append]
  have hRows :=
    rowsHold_join_several
      (rowsFilled_foldl (rowsFilled_outer hFirst) hBefore).1
      hAnd hSeveral hFilled hHolds
  have hLeading :
      rowsHold truth
          (lead.foldl join
            (join (before.foldl join first.outer) o)) = true := by
    clear hTail hFilledTail
    generalize join (before.foldl join first.outer) o = rows at hRows ⊢
    induction lead generalizing rows with
    | nil => exact hRows
    | cons x lead ih =>
        simp only [List.forall_mem_cons]
          at hLead hFilledLead hHoldsLead
        exact
          ih hLead.2 hFilledLead.2 hHoldsLead.2 _
            (rowsHold_join_and hRows hLead.1 hFilledLead.1
              hHoldsLead.1)
  cases tail with
  | nil => exact hLeading
  | cons x tail =>
      rw [List.forall_mem_cons] at hFilledTail
      exact
        ((heldBefore_join_or hLeading (hTail x rfl)
          hFilledTail.1).foldl hFilledTail.2).rowsHold

/-
  With OR in front of several rows, or nothing, the text holds
  where they do, whatever stands behind.
-/
theorem rowsHold_groupRows_front
    (hAll : ∀ x ∈ before ++ o :: behind, RowsFilled x.rows)
    (hFront : before = [] ∨ o.connective = .or)
    (hBehind : behind ≠ [])
    (hSeveral : o.outer.length ≠ 1)
    (hTrue : ∀ u ∈ o.outer.flatten, u.holds truth = true) :
    rowsHold truth (groupRows (before ++ o :: behind)) = true := by
  simp only [List.forall_mem_append, List.forall_mem_cons] at hAll
  rcases hAll with ⟨hBefore, hFilled, hFilledBehind⟩
  cases before with
  | nil =>
      rw [List.nil_append, groupRows_cons o hBehind]
      exact
        ((heldBefore_append [] hSeveral hFilled
          hTrue).foldl hFilledBehind).rowsHold
  | cons first before =>
      have hOr := hFront.resolve_left (List.cons_ne_nil first before)
      rw [List.cons_append, groupRows_cons first (by simp),
        List.foldl_append, List.foldl_cons, join, if_pos hOr]
      exact
        ((heldBefore_append _ hSeveral hFilled
          hTrue).foldl hFilledBehind).rowsHold

end Outline

------------------------------------------------------------
-- Values in a Group
------------------------------------------------------------

namespace Condition

variable {c : Condition}
variable {cs : List Condition}

/-
  Nothing holds as long as no truth has OR in front of it.
-/
theorem someHold_false_append
    {entries : List (Connective × Bool)}
    (rest : List (Connective × Bool))
    (hAll : ∀ e ∈ entries, e.2 = true → e.1 ≠ .or) :
    someHold false (entries ++ rest) = someHold false rest := by
  induction entries with
  | nil => rfl
  | cons e entries ih =>
      rw [List.forall_mem_cons] at hAll
      rcases e with ⟨connective, value⟩
      cases connective with
      | first => exact ih hAll.2
      | and => exact ih hAll.2
      | or =>
          cases value with
          | true => exact absurd rfl (hAll.1 rfl)
          | false => exact ih hAll.2

theorem someHold_false
    {entries : List (Connective × Bool)}
    (hAll : ∀ e ∈ entries, e.2 = true → e.1 ≠ .or) :
    someHold false entries = false := by
  have hNone := someHold_false_append [] hAll
  rwa [List.append_nil] at hNone

/- What joins a tree, and a value for it. -/
def entry
    (m : Condition × Bool) : Connective × Bool :=
  (m.1.connective, m.2)

/-
  Values for the conditions behind one that leave the group
  with the value of that one.
-/
theorem exists_marks_behind
    (behind : List Condition) :
    ∃ marks : List (Condition × Bool),
      marks.map Prod.fst = behind ∧
        ∀ value, someHold value (marks.map entry) = value := by
  induction behind with
  | nil => exact ⟨[], rfl, fun _ => rfl⟩
  | cons c behind ih =>
      by_cases hOr : c.connective = .or
      · refine
          ⟨(c, false) :: marked false behind, by simp, fun value => ?_⟩
        have hNone :
            someHold false ((marked false behind).map entry) = false :=
          someHold_false (by simp [marked, entry])
        rw [List.map_cons, entry, hOr, someHold, hNone, Bool.or_false]
      · rcases ih with ⟨marks, hMarks, hValue⟩
        refine ⟨(c, true) :: marks, by simp [hMarks], fun value => ?_⟩
        rw [List.map_cons, entry]
        cases hConnective : c.connective with
        | or => exact absurd hConnective hOr
        | first => rw [someHold, Bool.and_true, hValue]; simp
        | and => rw [someHold, Bool.and_true, hValue]; simp

/-
  Values for the conditions in front of one that leave the
  group with the value of the rest.
-/
theorem exists_marks_front
    (front : List Condition)
    (connective : Connective) :
    ∃ (first : Bool) (marks : List (Condition × Bool)),
      marks.map Prod.fst = front ∧
        ∀ value rest,
          someHold first
              (marks.map entry ++ (connective, value) :: rest) =
            someHold value rest := by
  induction front with
  | nil =>
      refine ⟨decide (connective ≠ .or), [], rfl, fun value rest => ?_⟩
      cases connective <;> simp [someHold]
  | cons c front ih =>
      rcases ih with ⟨first, marks, hMarks, hValue⟩
      refine
        ⟨decide (c.connective ≠ .or), (c, first) :: marks,
          by simp [hMarks], fun value rest => ?_⟩
      rw [List.map_cons, entry, List.cons_append, ← hValue value rest]
      cases c.connective <;> simp [someHold]

/- A condition may decide on its own what its group amounts to. -/
theorem exists_marks
    (front behind : List Condition)
    (connective : Connective) :
    ∃ marks marks' : List (Condition × Bool),
      marks.map Prod.fst = front ∧ marks'.map Prod.fst = behind ∧
        ∀ value,
          groupHolds
              (marks.map entry ++
                (connective, value) :: marks'.map entry) =
            value := by
  rcases exists_marks_behind behind with ⟨marks', hMarks', hBehind⟩
  cases front with
  | nil => exact ⟨[], marks', rfl, hMarks', hBehind⟩
  | cons c front =>
      rcases exists_marks_front front connective
        with ⟨first, marks, hMarks, hFront⟩
      refine
        ⟨(c, first) :: marks, marks', by simp [hMarks], hMarks',
          fun value => ?_⟩
      rw [List.map_cons, List.cons_append, entry, groupHolds, hFront,
        hBehind]

------------------------------------------------------------
-- Trees That Are Told from Their Text
------------------------------------------------------------

/- The conditions of a group are told from what is read of them. -/
def GroupDiffers
    (read : Predicate → Predicate)
    (truth : Predicate → Bool)
    (cs : List Condition) : Prop :=
  rowsHold truth (Outline.groupRows (outlines read cs)) ≠
    groupHolds (values (fun p => truth (read p)) cs)

theorem map_marks
    {marks : List (Condition × Bool)}
    {value : Condition → Bool}
    (hValue : ∀ m ∈ marks, value m.1 = m.2) :
    (marks.map Prod.fst).map (fun d => (d.connective, value d)) =
      marks.map entry := by
  rw [List.map_map]
  refine List.map_congr_left fun m hMem => ?_
  rw [Function.comp_apply, entry, hValue m hMem]

/- A group is told from its text where marks tell it. -/
theorem exists_groupDiffers_of_marks
    {marks : List (Condition × Bool)}
    (hAll : ∀ m ∈ marks, m.1.IsFilled)
    (hNodup : ((predicatesOf (marks.map Prod.fst)).map read).Nodup)
    (hNone : groupHolds (marks.map entry) = false)
    (hSome :
      ∀ truth,
        (∀ m ∈ marks, (Demand.uniform read m.1 m.2).Meets truth) →
          rowsHold truth
              (Outline.groupRows
                (outlines read (marks.map Prod.fst))) =
            true) :
    ∃ truth, GroupDiffers read truth (marks.map Prod.fst) := by
  rcases
      Demand.exists_uniform_all hNodup fun m hMem =>
        Demand.exists_uniform m.1 (hAll m hMem)
          (nodup_of_mem hNodup (List.mem_map_of_mem hMem)) m.2
    with ⟨truth, hMeets⟩
  refine ⟨truth, ?_⟩
  rw [GroupDiffers, values_eq, map_marks fun m hMem => (hMeets m hMem).2,
    hNone, hSome truth hMeets]
  exact Bool.noConfusion

theorem forall_rowsFilled
    (read : Predicate → Predicate)
    (hAll : ∀ c ∈ cs, c.IsFilled) :
    ∀ o ∈ cs.map (outline read), RowsFilled o.rows :=
  List.forall_mem_map.mpr fun c hMem =>
    rowsFilled_outline c (hAll c hMem)

variable {first d : Condition}
variable {before behind lead tail : List Condition}

/- The conditions up to the next one with OR in front of it. -/
theorem exists_lead
    (behind : List Condition) :
    ∃ lead tail,
      behind = lead ++ tail ∧ (∀ d ∈ lead, d.connective ≠ .or) ∧
        ∀ d ∈ tail.head?, d.connective = .or := by
  induction behind with
  | nil => exact ⟨[], [], rfl, by simp, by simp⟩
  | cons d behind ih =>
      by_cases hOr : d.connective = .or
      · exact ⟨[], d :: behind, rfl, by simp, by simpa using hOr⟩
      · rcases ih with ⟨lead, tail, rfl, hLead, hTail⟩
        exact
          ⟨d :: lead, tail, rfl,
            List.forall_mem_cons.mpr ⟨hOr, hLead⟩, hTail⟩

/-
  AND in front of an open OR: what stands in front of AND is
  given no truth, and the condition with the OR is, together
  with all that is joined to it with AND from behind.
-/
theorem exists_groupDiffers_behind
    (hAll : ∀ d ∈ first :: (before ++ c :: (lead ++ tail)), d.IsFilled)
    (hNodup :
      ((predicatesOf
        (first :: (before ++ c :: (lead ++ tail)))).map read).Nodup)
    (hAnd : c.connective ≠ .or)
    (hShows : c.showsOr = true)
    (hLead : ∀ d ∈ lead, d.connective ≠ .or)
    (hTail : ∀ d ∈ tail.head?, d.connective = .or) :
    ∃ truth,
      GroupDiffers read truth
        (first :: (before ++ c :: (lead ++ tail))) := by
  let marks : List (Condition × Bool) :=
    (first, false) ::
      (marked false before ++
        (c, true) :: (marked true lead ++ marked false tail))
  have hMarks :
      marks.map Prod.fst = first :: (before ++ c :: (lead ++ tail)) := by
    simp [marks]
  have hFilled : c.IsFilled := hAll c (by simp)
  have hSeveral : (outline read c).outer.length ≠ 1 := by
    rw [ne_eq, length_outer_eq_one_iff c hFilled, hShows]
    exact Bool.noConfusion
  rw [← hMarks] at hAll hNodup ⊢
  refine
    exists_groupDiffers_of_marks (List.forall_mem_map.mp hAll) hNodup
      ?_ fun truth hMeets => ?_
  · refine someHold_false (List.forall_mem_map.mpr fun m hMem hTrue => ?_)
    simp only [List.mem_append, List.mem_cons, mem_marked] at hMem
    rcases hMem with ⟨-, hFalse⟩ | rfl | ⟨hIn, -⟩ | ⟨-, hFalse⟩
    · exact absurd (hFalse.symm.trans hTrue) Bool.noConfusion
    · exact hAnd
    · exact hLead m.1 hIn
    · exact absurd (hFalse.symm.trans hTrue) Bool.noConfusion
  · rw [hMarks] at hAll ⊢
    have hRows := forall_rowsFilled read hAll
    simp only [outlines_eq, List.map_cons, List.map_append] at hRows ⊢
    refine
      Outline.rowsHold_groupRows_behind hRows (by simpa using hAnd)
        hSeveral (by simpa using hLead) (by simpa using hTail) ?_
    rw [← List.map_cons, List.forall_mem_map]
    intro d hMem
    have hMark : (d, true) ∈ marks := by
      simp only [marks, List.mem_cons, List.mem_append, mem_marked]
      rcases List.mem_cons.mp hMem with rfl | hMem
      · simp
      · simp [hMem]
    exact (hMeets (d, true) hMark).1

/-
  AND behind an open OR: the condition with the OR is given
  truth and all others are not.
-/
theorem exists_groupDiffers_front
    (hAll : ∀ e ∈ before ++ c :: d :: behind, e.IsFilled)
    (hNodup :
      ((predicatesOf (before ++ c :: d :: behind)).map read).Nodup)
    (hShows : c.showsOr = true)
    (hFront : before = [] ∨ c.connective = .or)
    (hAnd : d.connective ≠ .or) :
    ∃ truth, GroupDiffers read truth (before ++ c :: d :: behind) := by
  let marks : List (Condition × Bool) :=
    marked false before ++ (c, true) :: marked false (d :: behind)
  have hMarks : marks.map Prod.fst = before ++ c :: d :: behind := by
    simp [marks]
  have hSeveral : (outline read c).outer.length ≠ 1 := by
    rw [ne_eq, length_outer_eq_one_iff c (hAll c (by simp)), hShows]
    exact Bool.noConfusion
  -- Behind the truth stands AND with no truth.
  have hNone :
      someHold true ((marked false (d :: behind)).map entry) = false := by
    have hRest :
        someHold false ((marked false behind).map entry) = false :=
      someHold_false (by simp [marked, entry])
    have hValue :
        someHold true
            ((d.connective, false) :: (marked false behind).map entry) =
          someHold false ((marked false behind).map entry) := by
      cases hConnective : d.connective with
      | or => exact absurd hConnective hAnd
      | first => rfl
      | and => rfl
    exact hValue.trans hRest
  rw [← hMarks] at hAll hNodup ⊢
  refine
    exists_groupDiffers_of_marks (List.forall_mem_map.mp hAll) hNodup
      ?_ fun truth hMeets => ?_
  · cases before with
    | nil => exact hNone
    | cons first before =>
        have hOr := hFront.resolve_left (List.cons_ne_nil first before)
        have hBefore :
            ∀ e ∈ (marked false before).map entry,
              e.2 = true → e.1 ≠ .or := by
          simp [marked, entry]
        have hValue :
            groupHolds (marks.map entry) =
              someHold false
                ((marked false before).map entry ++
                  (.or, true) ::
                    (marked false (d :: behind)).map entry) := by
          rw [← hOr]
          simp [marks, marked, entry, groupHolds]
        rw [hValue, someHold_false_append _ hBefore, someHold, hNone,
          Bool.or_false]
  · rw [hMarks] at hAll ⊢
    have hRows := forall_rowsFilled read hAll
    have hMark : (c, true) ∈ marks := by
      simp [marks]
    simp only [outlines_eq, List.map_cons, List.map_append] at hRows ⊢
    exact
      Outline.rowsHold_groupRows_front hRows (by simpa using hFront)
        (List.cons_ne_nil _ _) hSeveral (hMeets (c, true) hMark).1

/- A chain that is broken is broken by some open OR. -/
theorem exists_groupDiffers_of_not_isChain
    (hAll : ∀ d ∈ cs, d.IsFilled)
    (hNodup : ((predicatesOf cs).map read).Nodup)
    (hChain : ¬ cs.IsChain IsGuarded) :
    ∃ truth, GroupDiffers read truth cs := by
  rw [List.isChain_iff_forall_rel_of_append_cons_cons] at hChain
  push Not at hChain
  rcases hChain with ⟨c, d, before, behind, rfl, hGuarded⟩
  simp only [IsGuarded, not_or, not_and_or, Bool.not_eq_false]
    at hGuarded
  rcases hGuarded with ⟨hAnd, hShows⟩
  -- An OR in a condition with AND in front of it breaks the chain.
  have hBehind
      (first e : Condition)
      (front rest : List Condition)
      (hSplit :
        before ++ c :: d :: behind = first :: (front ++ e :: rest))
      (hAnd : e.connective ≠ .or)
      (hShows : e.showsOr = true) :
      ∃ truth, GroupDiffers read truth (before ++ c :: d :: behind) := by
    rcases exists_lead rest with ⟨lead, tail, rfl, hLead, hTail⟩
    rw [hSplit] at hAll hNodup ⊢
    exact
      exists_groupDiffers_behind hAll hNodup hAnd hShows hLead hTail
  by_cases hSecond : d.showsOr = true
  · cases before with
    | nil => exact hBehind c d [] behind rfl hAnd hSecond
    | cons first before =>
        exact
          hBehind first d (before ++ [c]) behind (by simp) hAnd
            hSecond
  · have hFirst := hShows.resolve_right hSecond
    cases before with
    | nil =>
        exact
          exists_groupDiffers_front hAll hNodup hFirst (.inl rfl) hAnd
    | cons first before =>
        by_cases hOr : c.connective = .or
        · exact
            exists_groupDiffers_front hAll hNodup hFirst (.inr hOr) hAnd
        · exact hBehind first c before (d :: behind) rfl hOr hFirst

/-
  Where the neighbours of a group are guarded, a condition
  that is told from its text tells the group from its own.
-/
theorem exists_groupDiffers_of_child
    (hAll : ∀ d ∈ before ++ c :: behind, d.IsFilled)
    (hNodup :
      ((predicatesOf (before ++ c :: behind)).map read).Nodup)
    (hChain : (before ++ c :: behind).IsChain IsGuarded)
    (hDiffers : ∃ truth, (Demand.differs read c).Meets truth) :
    ∃ truth, GroupDiffers read truth (before ++ c :: behind) := by
  rcases exists_marks before behind c.connective
    with ⟨marks, marks', rfl, rfl, hValue⟩
  rcases Demand.exists_differs_among hAll hNodup hDiffers
    with ⟨truth, hMeets, hMeets', hDiffer⟩
  have hFilled := hAll
  simp only [List.forall_mem_append, List.forall_mem_cons,
    List.forall_mem_map] at hFilled
  have hRows :
      rowsHold truth (Outline.groupRows (outlines read _)) = _ :=
    rowsHold_outlines (by simp) hAll hChain
  rw [List.map_append, List.map_cons,
    map_marks fun m hMem =>
      Demand.rowsHold_of_meets_uniform (hFilled.1 m hMem)
        (hMeets m hMem),
    map_marks fun m hMem =>
      Demand.rowsHold_of_meets_uniform (hFilled.2.2 m hMem)
        (hMeets' m hMem),
    hValue] at hRows
  refine ⟨truth, ?_⟩
  rw [GroupDiffers, hRows, values_eq, List.map_append, List.map_cons,
    map_marks fun m hMem => (hMeets m hMem).2,
    map_marks fun m hMem => (hMeets' m hMem).2, hValue]
  exact hDiffer

/-
  A tree in which AND stands next to an open OR, and no
  predicate twice, is told from its text by some assignment,
  by induction on the tree.
-/
theorem exists_differs
    (c : Condition)
    (hFilled : c.IsFilled)
    (hNodup : (c.predicates.map read).Nodup)
    (hGuards : ¬ c.GuardsOr) :
    ∃ truth, (Demand.differs read c).Meets truth := by
  induction c using induct with
  | atom negated connective p =>
      exact absurd (fun _ hMem => absurd hMem List.not_mem_nil) hGuards
  | group negated connective cs ih =>
      rcases isFilled_group.mp hFilled with ⟨hSome, hAll⟩
      rw [predicates] at hNodup
      have hGroup : ∃ truth, GroupDiffers read truth cs := by
        by_cases hChain : cs.IsChain IsGuarded
        · rw [guardsOr_group, and_iff_right hChain] at hGuards
          push Not at hGuards
          rcases hGuards with ⟨c, hMem, hChild⟩
          have hDiffers :=
            ih c hMem (hAll c hMem) (nodup_of_mem hNodup hMem) hChild
          rcases List.append_of_mem hMem with ⟨before, behind, rfl⟩
          exact
            exists_groupDiffers_of_child hAll hNodup hChain hDiffers
        · exact exists_groupDiffers_of_not_isChain hAll hNodup hChain
      rcases hGroup with ⟨truth, hDiffers⟩
      refine ⟨truth, fun hSame => hDiffers ?_⟩
      rw [Outline.rowsHold_outer (rowsFilled_outline _ hFilled),
        negated_outline, holds] at hSame
      exact Bool.xor_right_inj.mp hSame

------------------------------------------------------------
-- The Value of a Text
------------------------------------------------------------

variable {env : Environment}

/-
  A tree with no group of none in it is read back from its
  text, if every predicate of it is and its parentheses do not
  nest too deep. What is read back has the value of the tree
  where AND stands next to no open OR, and only there, unless
  some predicate stands twice.
-/
theorem holds_written_iff_guardsOr
    (hFilled : c.IsFilled)
    (hLevels : c.levels false ≤ depthLimit)
    (hRead :
      ∀ p ∈ c.predicates,
        ofText env p.written = .ok (.atom false .first (read p))) :
    ∃ d,
      ofText env c.written = .ok d ∧
        d.predicates = c.predicates.map read ∧
        (c.GuardsOr →
          ∀ truth, d.holds truth = c.holds fun p => truth (read p)) ∧
        ((c.predicates.map read).Nodup →
          (∀ truth, d.holds truth = c.holds fun p => truth (read p)) →
            c.GuardsOr) := by
  have hRows : RowsFilled (outline read c).rows :=
    rowsFilled_outline c hFilled
  have hOuter := Outline.rowsFilled_outer hRows
  refine
    ⟨ofRows (outline read c).outer,
      ofText_written_eq hFilled hLevels hRead, ?_, ?_, ?_⟩
  · rw [predicates_ofRows, ← rowPredicates_outline c,
      ← Outline.rowPredicates_outer]
    rfl
  · intro hGuards truth
    rw [holds_ofRows truth hOuter.1 hOuter.2,
      rowsHold_outline c hFilled hGuards]
  · intro hNodup hSame
    by_contra hGuards
    rcases exists_differs c hFilled hNodup hGuards
      with ⟨truth, hDiffers⟩
    refine hDiffers ?_
    rw [← hSame truth, holds_ofRows truth hOuter.1 hOuter.2]

/- The field A is the number given. -/
def isNumber
    (n : Int) : Predicate :=
  ⟨"A".toList, .eq, some (Literal.integer n).shown, none,
    some (.integer n)⟩

/- Not 1 and 2, or 3, with no keyword in front of the 2. -/
def neitherBothNorThree : Condition :=
  .group true .and
    [ .group false .or
        [ .atom false .first (isNumber 1),
          .atom false .first (isNumber 2) ],
      .atom false .or (isNumber 3) ]

/- AND is written where no keyword is, and binds as it should. -/
theorem holds_written_iff_guardsOr_unjoined :
    neitherBothNorThree.written =
        "NOT (A = 1 AND A = 2 OR A = 3)".toList ∧
      ∃ d,
        ofText (oneField "A".toList) neitherBothNorThree.written =
            .ok d ∧
          ∀ truth, d.holds truth = neitherBothNorThree.holds truth := by
  have hRead :
      ∀ p ∈ neitherBothNorThree.predicates,
        ofText (oneField "A".toList) p.written =
          .ok (.atom false .first (id p)) := by
    decide +kernel
  rcases holds_written_iff_guardsOr (by decide) (by decide) hRead
    with ⟨d, hText, -, hHolds, -⟩
  exact ⟨by decide +kernel, d, hText, hHolds (by decide)⟩

/-
  Not every tree has the value of its text. Several conditions
  in a group are written without parentheses, so that AND in
  front of them takes the first only.
-/
theorem not_forall_holds_written :
    ¬ ∀ (env : Environment) (c : Condition),
      c.IsFilled → c.levels false ≤ depthLimit →
        (∀ p ∈ c.predicates,
          ofText env p.written = .ok (.atom false .first p)) →
          ∃ d,
            ofText env c.written = .ok d ∧
              ∀ truth, d.holds truth = c.holds truth := by
  intro hAll
  let one : Condition := .atom false .first (isNumber 1)
  let two : Condition := .atom false .first (isNumber 2)
  let three : Condition := .atom false .or (isNumber 3)
  let c : Condition :=
    .group false .first [one, .group false .and [two, three]]
  let read : Condition :=
    .group false .first
      [.group false .first [one, two.joinedBy .and], three]
  have hText :
      ofText (oneField "A".toList) c.written = .ok read := by
    decide +kernel
  rcases hAll (oneField "A".toList) c (by decide) (by decide)
      (by decide +kernel)
    with ⟨d, hRead, hHolds⟩
  rw [hText] at hRead
  cases hRead
  exact
    absurd (hHolds fun p => decide (p = isNumber 3)) (by decide)

end Condition

end SqlSelect
