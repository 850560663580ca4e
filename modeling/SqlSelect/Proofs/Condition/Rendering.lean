import SqlSelect.Proofs.Condition.Outline

/-
  Well-formed trees in writing. The outline of such a tree has
  the tree itself for its rows, so that a well-formed tree is
  read back from its text, whether it was read before or not,
  as soon as every predicate of it is read back on its own.

  Main statements:
    * `Condition.IsRecovered`
    * `Condition.isRecovered_of_regular`
    * `Condition.levels_le_nesting`
    * `Condition.ofText_written_of_wellFormed`
-/

namespace SqlSelect

namespace Condition

variable {env : Environment}
variable {read : Predicate → Predicate}
variable {c : Condition}
variable {cs : List Condition}
variable {rows : List (List Condition)}
variable {connective : Connective}

------------------------------------------------------------
-- Predicates That Are Read
------------------------------------------------------------

theorem mapPredicatesOf_eq
    (f : Predicate → Predicate)
    (cs : List Condition) :
    mapPredicatesOf f cs = cs.map (mapPredicates f) := by
  induction cs with
  | nil => rfl
  | cons c cs ih => rw [mapPredicatesOf, ih, List.map_cons]

@[simp]
theorem connective_mapPredicates
    (f : Predicate → Predicate)
    (c : Condition) :
    (c.mapPredicates f).connective = c.connective := by
  cases c <;> rfl

theorem joinedBy_of_connective
    (hJoined : c.connective = connective) :
    c.joinedBy connective = c := by
  subst hJoined
  cases c <;> rfl

/- A tree with equal predicates is the same tree. -/
theorem same_mapPredicates
    (c : Condition)
    (hSame : ∀ p ∈ c.predicates, p.SameValue (read p)) :
    c.same (c.mapPredicates read) = true := by
  induction c using induct with
  | atom negated connective p =>
      simpa [mapPredicates, same] using hSame p List.mem_cons_self
  | group negated connective cs ih =>
      have hChildren : sameAll cs (mapPredicatesOf read cs) = true := by
        have hIn (c : Condition) (hMem : c ∈ cs) :
            c.same (c.mapPredicates read) = true :=
          ih c hMem
            fun p hp => hSame p (mem_predicatesOf.mpr ⟨c, hMem, hp⟩)
        clear ih hSame
        induction cs with
        | nil => rfl
        | cons c cs ih =>
            rw [List.forall_mem_cons] at hIn
            rw [mapPredicatesOf, sameAll, hIn.1, ih hIn.2, Bool.true_and]
      simp [mapPredicates, same, hChildren]

/- The tree as it is read, joined to none in front. -/
def reread
    (read : Predicate → Predicate)
    (c : Condition) : Condition :=
  (c.mapPredicates read).joinedBy .first

/-
  Conditions that are read and joined anew are joined as they
  were, if they were joined with one keyword throughout.
-/
theorem chained_reread
    (hJoined : JoinedWith connective cs) :
    chained connective (cs.map (reread read)) =
      mapPredicatesOf read cs := by
  cases cs with
  | nil => rfl
  | cons first rest =>
      rcases hJoined with ⟨hFirst, hRest⟩
      rw [List.map_cons, chained, List.map_map, mapPredicatesOf_eq,
        List.map_cons]
      congr 1
      · rw [reread, joinedBy_joinedBy]
        exact joinedBy_of_connective (by simpa using hFirst)
      · refine List.map_congr_left fun c hMem => ?_
        rw [Function.comp_apply, reread, joinedBy_joinedBy]
        exact joinedBy_of_connective (by simpa using hRest c hMem)

theorem joinAll_reread
    (hSeveral : 2 ≤ cs.length)
    (hJoined : JoinedWith connective cs) :
    joinAll connective (cs.map (reread read)) =
      .group false .first (mapPredicatesOf read cs) := by
  rcases cs with _ | ⟨c, _ | ⟨d, cs⟩⟩
  · exact absurd hSeveral (by simp)
  · exact absurd hSeveral (by simp)
  · rw [← chained_reread hJoined, List.map_cons, List.map_cons,
      joinAll_eq_group]

------------------------------------------------------------
-- Outlines of Well-Formed Trees
------------------------------------------------------------

/-
  The rows of the outline are the tree. A tree that may be one
  of several is a single unit among those joined with AND, and
  a single row among those joined with OR.
-/
structure IsRecovered
    (read : Predicate → Predicate)
    (c : Condition) : Prop where
  body :
    ofRows (outline read c).rows = (reread read c).negatedIf c.negated
  unit :
    c.FitsIn .and → (outline read c).outer = [[reread read c]]
  row :
    c.FitsIn .or →
      ∃ row,
        (outline read c).outer = [row] ∧
          joinAll .and row = reread read c

/- Units with AND in front of them go on with the row. -/
theorem foldl_join_and
    {row : List Condition}
    (hAll :
      ∀ c ∈ cs,
        c.connective = .and ∧
          (outline read c).outer = [[reread read c]]) :
    (cs.map (outline read)).foldl Outline.join [row] =
      [row ++ cs.map (reread read)] := by
  induction cs generalizing row with
  | nil => simp
  | cons c cs ih =>
      rw [List.forall_mem_cons] at hAll
      rcases hAll with ⟨⟨hAnd, hUnit⟩, hRest⟩
      have hJoin :
          Outline.join [row] (outline read c) =
            [row ++ [reread read c]] := by
        rw [Outline.join, connective_outline, hAnd, hUnit]
        rfl
      rw [List.map_cons, List.foldl_cons, hJoin, ih hRest]
      simp

/- Each row with OR in front of it stands on its own. -/
theorem foldl_join_or
    (rows : List (List Condition))
    (hAll :
      ∀ c ∈ cs,
        c.connective = .or ∧
          ∃ row,
            (outline read c).outer = [row] ∧
              joinAll .and row = reread read c) :
    ∃ rows',
      (cs.map (outline read)).foldl Outline.join rows = rows ++ rows' ∧
        rows'.map (joinAll .and) = cs.map (reread read) := by
  induction cs generalizing rows with
  | nil => exact ⟨[], by simp⟩
  | cons c cs ih =>
      rw [List.forall_mem_cons] at hAll
      rcases hAll with ⟨⟨hOr, row, hRow, hJoined⟩, hRest⟩
      rcases ih (rows ++ [row]) hRest
        with ⟨rows', hFold, hRows⟩
      refine ⟨row :: rows', ?_, ?_⟩
      · rw [List.map_cons, List.foldl_cons, Outline.join,
          connective_outline, hOr, if_pos rfl, hRow, hFold]
        simp
      · rw [List.map_cons, hRows, hJoined, List.map_cons]

variable {first second : Condition}
variable {rest : List Condition}

/- One condition in parentheses is a unit. -/
theorem groupRows_singleton
    (hFirst : first.connective = .first)
    (hBody :
      ofRows (outline read first).rows =
        (reread read first).negatedIf first.negated) :
    Outline.groupRows (outlines read [first]) =
      [[.group false .first (mapPredicatesOf read [first])]] := by
  have hSame : reread read first = first.mapPredicates read :=
    joinedBy_of_connective (by simpa using hFirst)
  rw [outlines, outlines, Outline.groupRows, hBody, negated_outline,
    negatedIf_negatedIf, Bool.xor_self, negatedIf_false, hSame]
  rfl

/- Several conditions with AND between them are one row. -/
theorem groupRows_and
    (hRegular : IsRegular .and (first :: second :: rest))
    (hAll : ∀ c ∈ first :: second :: rest, IsRecovered read c) :
    Outline.groupRows (outlines read (first :: second :: rest)) =
      [(first :: second :: rest).map (reread read)] := by
  have hUnits (c : Condition) (hMem : c ∈ first :: second :: rest) :
      (outline read c).outer = [[reread read c]] :=
    (hAll c hMem).unit (hRegular.2 (by simp) c hMem)
  rw [List.forall_mem_cons] at hUnits
  rw [outlines_eq]
  change
    ((second :: rest).map (outline read)).foldl Outline.join
        (outline read first).outer = _
  rw [hUnits.1,
    foldl_join_and fun c hMem =>
      ⟨hRegular.1.2.2 c hMem, hUnits.2 c hMem⟩]
  rfl

/- With OR between them they are each a row of their own. -/
theorem map_groupRows_or
    (hRegular : IsRegular .or (first :: second :: rest))
    (hAll : ∀ c ∈ first :: second :: rest, IsRecovered read c) :
    (Outline.groupRows
          (outlines read (first :: second :: rest))).map
        (joinAll .and) =
      (first :: second :: rest).map (reread read) := by
  have hRows (c : Condition) (hMem : c ∈ first :: second :: rest) :
      ∃ row,
        (outline read c).outer = [row] ∧
          joinAll .and row = reread read c :=
    (hAll c hMem).row (hRegular.2 (by simp) c hMem)
  rw [List.forall_mem_cons] at hRows
  rcases hRows with ⟨⟨row, hFirst, hJoined⟩, hRest⟩
  rcases
      foldl_join_or [row] fun c hMem =>
        ⟨hRegular.1.2.2 c hMem, hRest c hMem⟩
    with ⟨rows', hFold, hRows⟩
  rw [outlines_eq]
  change
    (((second :: rest).map (outline read)).foldl Outline.join
          (outline read first).outer).map _ = _
  rw [hFirst, hFold, List.map_append, hRows, List.map_singleton,
    hJoined]
  rfl

/-
  A group is recovered when its rows are it, in one row if its
  conditions have AND between them.
-/
theorem isRecovered_group
    {negated : Bool}
    (hBody :
      ofRows (Outline.groupRows (outlines read cs)) =
        .group false .first (mapPredicatesOf read cs))
    (hUnit :
      cs.length = 1 →
        Outline.groupRows (outlines read cs) =
          [[.group false .first (mapPredicatesOf read cs)]])
    (hRow :
      2 ≤ cs.length → JoinedWith .and cs →
        ∃ row, Outline.groupRows (outlines read cs) = [row]) :
    IsRecovered read (.group negated connective cs) := by
  refine ⟨?_, ?_, ?_⟩
  · rw [outline, hBody]
    cases negated <;> rfl
  · rintro ⟨rfl, hOne | ⟨hOr, -⟩⟩
    · exact hUnit hOne
    · exact absurd hOr (by decide)
  · rintro ⟨rfl, hOne | ⟨-, hSeveral, hJoined⟩⟩
    · exact ⟨_, hUnit hOne, rfl⟩
    · rcases hRow hSeveral hJoined with ⟨row, hRows⟩
      refine ⟨row, hRows, ?_⟩
      rw [hRows] at hBody
      exact hBody

/-
  A tree with groups that are joined throughout is recovered,
  by induction on the tree. What joins the conditions of a
  group is what their rows are joined by again.
-/
theorem isRecovered_of_regular
    (c : Condition)
    (hRegular : c.HasRegularGroups) :
    IsRecovered read c := by
  induction c using induct with
  | atom negated connective p =>
      have hUnit :
          (outline read (atom negated connective p)).outer =
            [[reread read (atom negated connective p)]] := by
        cases negated <;> rfl
      refine ⟨?_, fun _ => hUnit, fun _ => ⟨_, hUnit, rfl⟩⟩
      cases negated <;> rfl
  | group negated connective cs ih =>
      rcases hasRegularGroups_group.mp hRegular with ⟨hGroup, hInner⟩
      have hAll (c : Condition) (hMem : c ∈ cs) :
          IsRecovered read c :=
        ih c hMem (hInner c hMem)
      rcases cs with _ | ⟨first, _ | ⟨second, rest⟩⟩
      · rcases hGroup with hNone | hNone <;> exact absurd rfl hNone.1.1
      · have hFirst : first.connective = .first := by
          rcases hGroup with hOne | hOne <;> exact hOne.1.2.1
        have hUnit :=
          groupRows_singleton hFirst (hAll first List.mem_cons_self).body
        refine isRecovered_group ?_ (fun _ => hUnit) fun hSeveral => ?_
        · rw [hUnit]
          rfl
        · exact absurd hSeveral (by simp)
      · rcases hGroup with hAnd | hOr
        · have hRow := groupRows_and hAnd hAll
          refine
            isRecovered_group ?_ (by simp) fun _ _ => ⟨_, hRow⟩
          rw [hRow]
          exact joinAll_reread (by simp) hAnd.1.2
        · have hRows := map_groupRows_or hOr hAll
          refine isRecovered_group ?_ (by simp) fun _ hJoined => ?_
          · rw [ofRows, hRows]
            exact joinAll_reread (by simp) hOr.1.2
          · -- The second condition has OR in front of it, not AND.
            have hNext := hJoined.2 second List.mem_cons_self
            rw [hOr.1.2.2 second List.mem_cons_self] at hNext
            exact absurd hNext (by decide)

------------------------------------------------------------
-- Parentheses of Well-Formed Trees
------------------------------------------------------------

theorem levels_of_fitsIn
    (hFits : c.FitsIn connective) :
    c.levels false = c.levels true := by
  cases c with
  | atom negated k p => rfl
  | group negated k children =>
      rcases hFits with ⟨rfl, -⟩
      simp [levels]

/-
  A tree with groups that are joined throughout has no other
  parentheses than those of its groups of one.
-/
theorem levels_le_nesting
    (c : Condition)
    (hRegular : c.HasRegularGroups) :
    c.levels true ≤ c.nesting := by
  induction c using induct with
  | atom negated connective p => exact Nat.le_refl 0
  | group negated connective cs ih =>
      rcases hasRegularGroups_group.mp hRegular with ⟨hGroup, hInner⟩
      have hAll (c : Condition) (hMem : c ∈ cs) :
          c.levels true ≤ nestingOf cs :=
        (ih c hMem (hInner c hMem)).trans
          (nestingOf_le_iff.mp (Nat.le_refl _) c hMem)
      by_cases hOne : cs.length = 1
      · simpa [levels, nesting, hOne] using levelsOf_le_iff.mpr hAll
      · have hSeveral : 2 ≤ cs.length := by
          have hSome : cs ≠ [] := by
            rcases hGroup with hAnd | hOr
            · exact hAnd.1.1
            · exact hOr.1.1
          have hPos := List.length_pos_iff.mpr hSome
          omega
        have hFits (c : Condition) (hMem : c ∈ cs) :
            c.levels false = c.levels true := by
          rcases hGroup with hAnd | hOr
          · exact levels_of_fitsIn (hAnd.2 hSeveral c hMem)
          · exact levels_of_fitsIn (hOr.2 hSeveral c hMem)
        have hLevels : levelsOf false cs ≤ nestingOf cs := by
          refine levelsOf_le_iff.mpr fun c hMem => ?_
          rw [hFits c hMem]
          exact hAll c hMem
        simpa [levels, nesting, hOne] using hLevels

------------------------------------------------------------
-- Well-Formed Trees in Writing
------------------------------------------------------------

theorem WellFormed.fitsIn_or_plain
    (hForm : c.WellFormed) :
    c.FitsIn .and ∨ c.negated = false := by
  rcases hForm.1.2 with hAtom | hPlain
  · cases c with
    | atom negated connective p => exact .inl trivial
    | group negated connective cs => exact absurd hAtom Bool.false_ne_true
  · exact .inr hPlain

theorem WellFormed.levels_le_nesting
    (hForm : c.WellFormed) :
    c.levels false ≤ c.nesting := by
  have hSame : c.levels false = c.levels true := by
    rcases hForm.fitsIn_or_plain with hFits | hPlain
    · exact levels_of_fitsIn hFits
    · cases c with
      | atom negated connective p => rfl
      | group negated connective cs =>
          cases hPlain
          simp [levels]
  rw [hSame]
  exact Condition.levels_le_nesting c hForm.2

theorem WellFormed.isFilled
    (hForm : c.WellFormed) :
    c.IsFilled := by
  intro cs hMem
  rcases hForm.2 cs hMem with hAnd | hOr
  · exact hAnd.1.1
  · exact hOr.1.1

/- The rows of a well-formed tree are the tree as it is read. -/
theorem WellFormed.ofRows_outer
    (hForm : c.WellFormed) :
    ofRows (outline read c).outer = c.mapPredicates read := by
  have hRecovered : IsRecovered read c :=
    isRecovered_of_regular c hForm.2
  have hSame : reread read c = c.mapPredicates read :=
    joinedBy_of_connective (by simpa using hForm.1.1)
  rcases hForm.fitsIn_or_plain with hFits | hPlain
  · rw [hRecovered.unit hFits, hSame]
    rfl
  · rw [Outline.outer, negated_outline, if_pos hPlain, hRecovered.body,
      hPlain, negatedIf_false, hSame]

/-
  A well-formed tree that does not nest too deep is read back
  from its text as it was, if every predicate of it is read
  back from the text of its own.
-/
theorem ofText_written_of_wellFormed
    (hForm : c.WellFormed)
    (hNesting : c.nesting ≤ depthLimit)
    (hRead :
      ∀ p ∈ c.predicates,
        ofText env p.written = .ok (.atom false .first (read p)) ∧
          p.SameValue (read p)) :
    ofText env c.written = .ok (c.mapPredicates read) ∧
      c.same (c.mapPredicates read) = true := by
  refine ⟨?_, same_mapPredicates c fun p hMem => (hRead p hMem).2⟩
  rw [← hForm.ofRows_outer]
  exact
    ofText_written_eq hForm.isFilled
      (hForm.levels_le_nesting.trans hNesting)
      fun p hMem => (hRead p hMem).1

/- A value that is missing or not both, with NOT around it. -/
def presentAndBoth : Condition :=
  enclosed (missingOrNotBoth.negatedIf true)

/- NOT is read back in front of parentheses in parentheses. -/
theorem ofText_written_of_wellFormed_not_or :
    presentAndBoth.written =
        "NOT (A IS NULL OR NOT (A > 1 AND NOT A IN ('2', '3')))".toList ∧
      ofText (oneField "A".toList) presentAndBoth.written =
        .ok presentAndBoth := by
  have hRead :
      ∀ p ∈ presentAndBoth.predicates,
        ofText (oneField "A".toList) p.written =
            .ok (.atom false .first (id p)) ∧
          p.SameValue (id p) := by
    decide +kernel
  have hAgain :=
    ofText_written_of_wellFormed (by decide) (by decide) hRead
  exact ⟨by decide +kernel, hAgain.1⟩

end Condition

end SqlSelect
