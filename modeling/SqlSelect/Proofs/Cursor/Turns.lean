import Mathlib.Logic.Relation
import SqlSelect.Proofs.Cursor.Divisions
import SqlSelect.Proofs.Cursor.Quotes
import SqlSelect.Proofs.Cursor.Reading

/-
  The walks of a cursor agree. Turn by turn each of them comes
  to what it is by the nesting, so they see the same sections
  and groups. From a place at the top level the end of a group
  and the end of an operand can be told by the turns of the
  walk to the top level alone.

  Main statements:
    * `Cursor.byTurns_eq`
    * `Cursor.topByTurns_eq`
    * `Cursor.groupByTurns_eq`
    * `Cursor.operandByTurns_eq`
    * `Cursor.ReachedIn.exists_run`
    * `Cursor.exists_turns_of_groupFrom`
    * `Cursor.walks_agree`
-/

namespace SqlSelect

open Text

------------------------------------------------------------
-- Turns
------------------------------------------------------------

/- A walk that goes on as a turn tells it to, or ends there. -/
def Turn.andThen
    {α : Type}
    (walk : Cursor → Except Error α × Cursor) :
    Turn α × Cursor → Except Error α × Cursor
  | (.ends outcome, after) => (outcome, after)
  | (.goesOn, after) => walk after

namespace Stop

variable {c q : Char}

/- The groups that are open do not change what a section takes. -/
theorem afterSection_eq
    (q : Char)
    (depth : Nat)
    (t : Text) :
    afterSection q depth t =
      { afterSection q 0 t with depth := depth } := by
  fun_induction afterSection q depth t with
  | case1 => rfl
  | case2 c => rfl
  | case3 d rest hDoubled ih =>
      rw [ih, afterSection, if_pos rfl, if_pos hDoubled]
  | case4 d rest hSingle =>
      rw [afterSection, if_pos rfl, if_neg hSingle]
  | case5 c d rest hOther ih => rw [ih, afterSection, if_neg hOther]

/- A walk to the top level from the start of a section. -/
theorem atTop_opens
    (halt : Char → Bool)
    (depth : Nat)
    (t : Text)
    (hOpens : closerOf? c = some q) :
    atTop halt none depth (c :: t) =
      (afterSection q depth t).andThen (atTop halt none depth) := by
  rw [atTop_none_cons, hOpens]
  exact atTop_section _ (Nesting.inSection_of_closerOf? hOpens) depth t

/- A walk to the end of a group from the start of a section. -/
theorem afterGroup_opens
    (depth : Nat)
    (t : Text)
    (hOpens : closerOf? c = some q) :
    afterGroup none depth (c :: t) =
      (afterSection q depth t).andThen (afterGroup none depth) := by
  rw [← afterGroup_section (Nesting.inSection_of_closerOf? hOpens)]
  cases depth <;> simp [afterGroup, hOpens]

end Stop

namespace Cursor

variable {s after : Cursor}

/-
  A walk that is told by what its turns come to is the walk
  turn by turn. By induction on the turns, in which `Valid`
  stays true.
-/
theorem byTurns_eq
    {α : Type}
    {turn : Cursor → Turn α × Cursor}
    {hLess :
      ∀ s after,
        turn s = (.goesOn, after) → after.rest.length < s.rest.length}
    {walk : Cursor → Except Error α × Cursor}
    (Valid : Cursor → Prop)
    (hTurn : ∀ s, Valid s → walk s = Turn.andThen walk (turn s))
    (hStays :
      ∀ s after, Valid s → turn s = (.goesOn, after) → Valid after)
    (hValid : Valid s) :
    byTurns turn hLess s = walk s := by
  fun_induction byTurns turn hLess s with
  | case1 s outcome after hEnds =>
      rw [hTurn s hValid, hEnds]
      rfl
  | case2 s after hGoesOn ih =>
      rw [hTurn s hValid, hGoesOn]
      exact ih (hStays s after hValid hGoesOn)

/- A section is taken whole, or it has no end. -/
theorem passSection_cases
    (q : Char)
    (s : Cursor) :
    ∃ rest,
      ((∀ depth,
          Stop.afterSection q depth s.rest.tail =
            ⟨true, depth, rest⟩) ∧
        s.passSection q = (.ok (), { s with rest := rest })) ∨
      ((∀ depth,
          Stop.afterSection q depth s.rest.tail =
            ⟨false, depth, rest⟩) ∧
        s.passSection q =
          (.error s.unbalanced, { s with rest := rest })) := by
  have hAny (depth : Nat) :=
    Stop.afterSection_eq q depth s.rest.tail
  rcases hStop : Stop.afterSection q 0 s.rest.tail
    with ⟨_ | _, none, rest⟩
  all_goals
    rw [hStop] at hAny
    refine ⟨rest, ?_⟩
  · refine .inr ⟨hAny, ?_⟩
    simp [passSection, advance, moveTo, hAny, unbalanced]
  · refine .inl ⟨hAny, ?_⟩
    simp [passSection, advance, moveTo, hAny]

/- Behind a section as many groups are open as in front of it. -/
theorem depth_passSection
    {q : Char}
    (hPassed : s.passSection q = (.ok (), after)) :
    after.depth = s.depth := by
  rcases passSection_cases q s with ⟨rest, ⟨-, hPass⟩ | ⟨-, hPass⟩⟩
  · rw [hPass] at hPassed
    cases hPassed
    rfl
  · rw [hPass] at hPassed
    cases hPassed

------------------------------------------------------------
-- To the Top Level
------------------------------------------------------------

theorem nextTop_turn
    (s : Cursor) :
    s.nextTop = Turn.andThen nextTop s.topTurn := by
  rcases s with ⟨input, _ | ⟨c, t⟩, depth⟩
  · cases depth <;> rfl
  · simp only [topTurn, next?, List.head?_cons]
    cases hOpens : closerOf? c with
    | some q =>
        have hStop :=
          Stop.atTop_opens (fun _ => true) depth t hOpens
        rcases passSection_cases q ⟨input, c :: t, depth⟩
          with ⟨rest, ⟨hAfter, hPass⟩ | ⟨hAfter, hPass⟩⟩
        all_goals
          simp only [List.tail_cons] at hAfter
          simp [nextTop, hStop, hAfter, hPass, Stop.andThen, moveTo,
            Turn.ofOutcome, Turn.andThen, unbalanced]
    | none =>
        simp only [nextTop, Stop.atTop_none_cons, hOpens, and_true]
        split_ifs with hLeft hRight hOutside hOutside
        · rfl
        · subst hOutside
          rfl
        · obtain ⟨fewer, rfl⟩ := Nat.exists_eq_succ_of_ne_zero hOutside
          rfl
        · subst hOutside
          rfl
        · rfl

theorem topByTurns_eq
    (s : Cursor) :
    s.topByTurns = s.nextTop :=
  byTurns_eq (fun _ => True) (fun s _ => nextTop_turn s)
    (fun _ _ _ _ => trivial) trivial

------------------------------------------------------------
-- To the End of a Group
------------------------------------------------------------

/-
  Where the walk to the end of a group leads the cursor, when
  the group has begun with `outer` groups open.
-/
def passGroupFrom
    (outer : Nat)
    (s : Cursor) : Except Error Unit × Cursor :=
  let stop := Stop.afterGroup none (s.depth - outer) s.rest
  s.moveTo { stop with depth := outer + stop.depth }

theorem passGroupFrom_eq
    (outer depth : Nat)
    (input t : Text) :
    passGroupFrom outer ⟨input, t, outer + depth⟩ =
      moveTo ⟨input, t, outer + depth⟩
        { Stop.afterGroup none depth t with
          depth := outer + (Stop.afterGroup none depth t).depth } := by
  rw [passGroupFrom, Nat.add_sub_cancel_left]

theorem passGroupFrom_turn
    {outer : Nat}
    (hInside : outer ≤ s.depth) :
    s.passGroupFrom outer =
      Turn.andThen (passGroupFrom outer) (s.groupTurn outer) := by
  rcases s with ⟨input, t, _⟩
  obtain ⟨depth, rfl⟩ := Nat.exists_eq_add_of_le hInside
  rw [passGroupFrom_eq]
  cases t with
  | nil => rfl
  | cons c t =>
      simp only [groupTurn, next?, List.head?_cons]
      cases hOpens : closerOf? c with
      | some q =>
          have hStop := Stop.afterGroup_opens depth t hOpens
          rcases passSection_cases q ⟨input, c :: t, outer + depth⟩
            with ⟨rest, ⟨hAfter, hPass⟩ | ⟨hAfter, hPass⟩⟩
          all_goals
            simp only [List.tail_cons] at hAfter
            simp [passGroupFrom, hStop, hAfter, hPass, Stop.andThen,
              moveTo, Turn.ofOutcome, Turn.andThen, unbalanced]
      | none =>
          cases depth with
          | zero =>
              simp only [Stop.afterGroup, hOpens, Nat.add_zero, if_true]
              split_ifs with hLeft hRight
              · exact (passGroupFrom_eq outer 1 input t).symm
              · rfl
              · exact (passGroupFrom_eq outer 0 input t).symm
          | succ depth =>
              simp only [Stop.afterGroup_none_cons, hOpens]
              split_ifs with hLeft hRight hNone hEnd
              · exact (passGroupFrom_eq outer (depth + 2) input t).symm
              · omega
              · obtain rfl : depth = 0 := by omega
                rfl
              · obtain ⟨fewer, rfl⟩ :=
                  Nat.exists_eq_succ_of_ne_zero (n := depth) (by omega)
                exact (passGroupFrom_eq outer (fewer + 1) input t).symm
              · exact (passGroupFrom_eq outer (depth + 1) input t).symm

/- The turns of the walk stay inside of the group. -/
theorem groupTurn_depth
    {outer : Nat}
    (hInside : outer ≤ s.depth)
    (hTurn : s.groupTurn outer = (.goesOn, after)) :
    outer ≤ after.depth := by
  rw [groupTurn] at hTurn
  split at hTurn
  · cases hTurn
  · split at hTurn
    · rename_i q hOpens
      rw [Turn.ofOutcome_eq_goesOn_iff] at hTurn
      rw [depth_passSection hTurn]
      exact hInside
    · split_ifs at hTurn with hLeft hRight hNone hEnd
      all_goals cases hTurn
      · exact Nat.le_succ_of_le hInside
      · simp only [advanceTo]
        omega
      · exact hInside

theorem groupByTurns_eq
    (s : Cursor) :
    s.groupByTurns = s.passGroup := by
  have hFrom : s.groupFrom s.depth = s.passGroupFrom s.depth :=
    byTurns_eq (fun s' => s.depth ≤ s'.depth)
      (fun _ => passGroupFrom_turn) (fun _ _ => groupTurn_depth)
      (Nat.le_refl s.depth)
  rw [groupByTurns, hFrom, passGroupFrom, passGroup, Nat.sub_self]

end Cursor

------------------------------------------------------------
-- Over an Operand
------------------------------------------------------------

namespace Stop

/-
  A walk to the top level from inside of a group goes on behind
  the group, by induction on the text.
-/
theorem atTop_inside
    (halt : Char → Bool)
    (closer : Option Char)
    (depth : Nat)
    (t : Text) :
    atTop halt closer (depth + 1) t =
      (afterGroup closer (depth + 1) t).andThen (atTop halt none 0) := by
  induction t generalizing closer depth with
  | nil => cases closer <;> rfl
  | cons c t ih =>
      cases closer with
      | some q => simp [atTop, afterGroup, ih]
      | none =>
          rw [atTop_none_cons, afterGroup_none_cons]
          cases hOpens : closerOf? c with
          | some q => exact ih (some q) depth
          | none =>
              dsimp only
              split_ifs with hLeft hRight hHalts
              · exact ih none (depth + 1)
              · cases depth with
                | zero => rfl
                | succ depth => exact ih none depth
              · exact hHalts.1.elim
              · exact ih none depth

/- No group is open behind the end of the group. -/
theorem afterGroup_depth
    {closer : Option Char}
    {depth : Nat}
    {t : Text}
    (hReached : (afterGroup closer depth t).reached = true) :
    (afterGroup closer depth t).depth = 0 := by
  rcases exists_run_afterGroup ⟨closer, depth⟩ t
    with ⟨passed, m, -, hRun, hDepth, hEnd⟩
  rcases hEnd hReached with ⟨front, rfl, hFront⟩
  rw [Nesting.run_append, hFront] at hRun
  cases hRun
  exact hDepth.symm

end Stop

namespace Cursor

/- Where the walk over an operand leads the cursor. -/
def passOperand
    (s : Cursor) : Except Error Unit × Cursor :=
  let stop := Stop.atTop endsOperand none 0 s.rest
  s.moveTo { stop with depth := s.depth + stop.depth }

theorem passOperand_turn
    (s : Cursor) :
    s.passOperand = Turn.andThen passOperand s.operandTurn := by
  rcases s with ⟨input, _ | ⟨c, t⟩, depth⟩
  · rfl
  · simp only [operandTurn, next?, List.head?_cons]
    cases hOpens : closerOf? c with
    | some q =>
        have hStop := Stop.atTop_opens endsOperand 0 t hOpens
        rcases passSection_cases q ⟨input, c :: t, depth⟩
          with ⟨rest, ⟨hAfter, hPass⟩ | ⟨hAfter, hPass⟩⟩
        all_goals
          simp only [List.tail_cons] at hAfter
          simp [passOperand, hStop, hAfter, hPass, Stop.andThen, moveTo,
            Turn.ofOutcome, Turn.andThen, unbalanced]
    | none =>
        simp only [passOperand, Stop.atTop_none_cons, hOpens, true_and]
        split_ifs with hLeft hRight hHalts hEnds hEnds
        · -- The group is taken whole.
          subst hLeft
          have hGroup :
              Stop.afterGroup none 0 ('(' :: t) =
                Stop.afterGroup none 1 t := rfl
          have hStop := Stop.atTop_inside endsOperand none 0 t
          cases hReached : (Stop.afterGroup none 1 t).reached with
          | false =>
              simp [groupByTurns_eq, passGroup, hGroup, hStop, hReached,
                Stop.andThen, moveTo, Turn.ofOutcome, Turn.andThen]
          | true =>
              have hDepth := Stop.afterGroup_depth hReached
              simp [passOperand, groupByTurns_eq, passGroup, hGroup,
                hStop, hReached, hDepth, Stop.andThen, moveTo,
                Turn.ofOutcome, Turn.andThen, unbalanced]
        · rfl
        · rfl
        · exact absurd hHalts hEnds
        · exact absurd hEnds hHalts
        · rfl

theorem operandByTurns_eq
    (s : Cursor) :
    s.operandByTurns = s.operand := by
  have hFrom : s.skipBlanks.operandFrom = s.skipBlanks.passOperand :=
    byTurns_eq (fun _ => True) (fun s _ => passOperand_turn s)
      (fun _ _ _ _ => trivial) trivial
  rw [operandByTurns, hFrom]
  rfl

end Cursor

------------------------------------------------------------
-- Along the Walk to the Top Level
------------------------------------------------------------

namespace Stop

/- The nesting behind a section is the one in front of it. -/
theorem exists_run_afterSection
    {q : Char}
    {t : Text}
    (depth : Nat)
    (hSection : Nesting.InSection (some q))
    (hReached : (afterSection q depth t).reached = true) :
    ∃ passed,
      t = passed ++ (afterSection q depth t).rest ∧
        Nesting.run ⟨some q, depth⟩ passed = some ⟨none, depth⟩ := by
  fun_induction afterSection q depth t with
  | case1 => cases hReached
  | case2 c =>
      refine ⟨[c], rfl, ?_⟩
      simp [Nesting.run_cons, Nesting.step, eq_of_beq hReached]
  | case3 d rest hDoubled ih =>
      rcases ih hReached with ⟨passed, hText, hRun⟩
      refine ⟨q :: d :: passed, congrArg (q :: d :: ·) hText, ?_⟩
      have hOpens := (hSection q rfl).resolve_left hDoubled.1
      simp [Nesting.run_cons, Nesting.step, hDoubled.2, hOpens, hRun]
  | case4 d rest hSingle =>
      exact ⟨[q], rfl, by simp [Nesting.run_cons, Nesting.step]⟩
  | case5 c d rest hOther ih =>
      rcases ih hReached with ⟨passed, hText, hRun⟩
      refine ⟨c :: passed, congrArg (c :: ·) hText, ?_⟩
      simp [Nesting.run_cons, Nesting.step, hOther, hRun]

end Stop

namespace Cursor

variable {s after : Cursor}

/-
  The walk to the top level gets from one place to another in
  a turn: it goes on there, or it has found a character and is
  begun again behind it.
-/
def TurnsTo
    (s after : Cursor) : Prop :=
  s.topTurn = (.goesOn, after) ∨
    ∃ found, s.topTurn = (.ends (.ok (some found)), after)

/- A turn over a character that opens no section. -/
theorem TurnsTo.step
    {input t : Text}
    {c : Char}
    {depth : Nat}
    (hPlain : closerOf? c = none)
    (hTurn : TurnsTo ⟨input, c :: t, depth⟩ after) :
    ∃ depth',
      after = ⟨input, t, depth'⟩ ∧
        Nesting.step ⟨none, depth⟩ c = some ⟨none, depth'⟩ := by
  simp only [TurnsTo, topTurn, next?, List.head?_cons, hPlain] at hTurn
  simp only [Nesting.step, hPlain]
  rcases hTurn with hTurn | ⟨found, hTurn⟩
  all_goals
    split_ifs at hTurn ⊢ with hLeft hRight hNone hOutside
    all_goals cases hTurn
  · exact ⟨depth + 1, rfl, rfl⟩
  · obtain ⟨fewer, rfl⟩ := Nat.exists_eq_succ_of_ne_zero hNone
    exact ⟨fewer, rfl, rfl⟩
  · exact ⟨depth, rfl, rfl⟩
  · exact ⟨depth, rfl, rfl⟩

/- What a turn takes leads from the one depth to the other. -/
theorem TurnsTo.exists_run
    (hTurn : s.TurnsTo after) :
    after.input = s.input ∧
      ∃ passed,
        s.rest = passed ++ after.rest ∧
          Nesting.run ⟨none, s.depth⟩ passed =
            some ⟨none, after.depth⟩ := by
  rcases s with ⟨input, _ | ⟨c, t⟩, depth⟩
  · simp only [TurnsTo, topTurn, next?, List.head?_nil] at hTurn
    split_ifs at hTurn <;> simp at hTurn
  · cases hOpens : closerOf? c with
    | some q =>
        have hSection := Nesting.inSection_of_closerOf? hOpens
        simp only [TurnsTo, topTurn, next?, List.head?_cons, hOpens,
          Turn.ofOutcome_eq_goesOn_iff, Turn.ofOutcome_ne_ends_ok,
          exists_const, or_false] at hTurn
        rcases passSection_cases q ⟨input, c :: t, depth⟩
          with ⟨rest, ⟨hAfter, hPass⟩ | ⟨-, hPass⟩⟩
        · rw [hPass] at hTurn
          cases hTurn
          simp only [List.tail_cons] at hAfter
          rcases
            Stop.exists_run_afterSection depth hSection
              (by rw [hAfter])
            with ⟨passed, hText, hRun⟩
          rw [hAfter] at hText
          refine ⟨rfl, c :: passed, congrArg (c :: ·) hText, ?_⟩
          simp [Nesting.run_cons, Nesting.step, hOpens, hRun]
        · rw [hPass] at hTurn
          cases hTurn
    | none =>
        rcases hTurn.step hOpens with ⟨depth', rfl, hStep⟩
        refine ⟨rfl, [c], rfl, ?_⟩
        rw [Nesting.run_cons, hStep]
        rfl

/- The walk from the start of a text gets to the place. -/
def ReachedIn
    (t : Text)
    (s : Cursor) : Prop :=
  Relation.ReflTransGen TurnsTo (ofText t) s

theorem ReachedIn.exists_run
    {t : Text}
    (hReached : ReachedIn t s) :
    s.input = t ∧
      ∃ front,
        t = front ++ s.rest ∧
          Nesting.outside.run front = some ⟨none, s.depth⟩ := by
  induction hReached with
  | refl => exact ⟨rfl, [], rfl, rfl⟩
  | tail _ hTurn ih =>
      rcases ih with ⟨hInput, front, hText, hFront⟩
      rcases hTurn.exists_run with ⟨hSame, passed, hRest, hRun⟩
      refine ⟨hSame.trans hInput, front ++ passed, ?_, ?_⟩
      · rw [hText, hRest, List.append_assoc]
      · rw [Nesting.run_append, hFront]
        exact hRun

/- A turn that does not get out of the groups that are open. -/
def TurnsInside
    (s after : Cursor) : Prop :=
  s.TurnsTo after ∧ 0 < after.depth

/-
  A turn in a group that has begun at the top level is one of
  the walk to the top level. The last one gets out of it.
-/
theorem topTurn_of_groupTurn
    (hInside : 0 < s.depth ∨ s.next? = some '(') :
    (s.groupTurn 0 = (.goesOn, after) → s.TurnsInside after) ∧
      (s.groupTurn 0 = (.ends (.ok ()), after) →
        s.next? = some ')' ∧ s.TurnsTo after ∧ after.depth = 0) := by
  simp only [TurnsInside, TurnsTo, groupTurn, topTurn]
  cases hNext : s.next? with
  | none => constructor <;> rintro ⟨⟩
  | some c =>
      cases hOpens : closerOf? c with
      | some q =>
          have hDepth : 0 < s.depth := by
            refine hInside.resolve_right fun hParen => ?_
            rw [hNext, Option.some.injEq] at hParen
            subst hParen
            cases hOpens
          simp only [hOpens, Turn.ofOutcome_eq_goesOn_iff,
            Turn.ofOutcome_ne_ends_ok, exists_const, or_false,
            false_implies, and_true]
          intro hPassed
          rw [depth_passSection hPassed]
          exact ⟨hPassed, hDepth⟩
      | none =>
          have hDepth : c ≠ '(' → s.depth ≠ 0 := by
            intro hOther hNone
            rcases hInside with hDepth | hParen
            · omega
            · exact hOther (Option.some.inj (hNext.symm.trans hParen))
          simp only [hOpens]
          split_ifs with hLeft hRight hNone hLast hOutside
          · constructor
            · rintro ⟨⟩
              exact ⟨.inl rfl, Nat.succ_pos s.depth⟩
            · rintro ⟨⟩
          · constructor <;> rintro ⟨⟩
          · constructor
            · rintro ⟨⟩
            · rintro ⟨⟩
              exact ⟨congrArg some hRight, .inl rfl, hLast⟩
          · constructor
            · rintro ⟨⟩
              exact ⟨.inl rfl, Nat.pos_of_ne_zero hLast⟩
            · rintro ⟨⟩
          · exact absurd hOutside (hDepth hLeft)
          · constructor
            · rintro ⟨⟩
              exact ⟨.inl rfl, Nat.pos_of_ne_zero hOutside⟩
            · rintro ⟨⟩

/-
  The walk to the end of the group gets there by these turns.
  By induction on the walk.
-/
theorem exists_turns_of_groupFrom
    (hInside : 0 < s.depth ∨ s.next? = some '(')
    (hGroup : s.groupFrom 0 = (.ok (), after)) :
    ∃ last,
      Relation.ReflTransGen TurnsInside s last ∧
        last.next? = some ')' ∧ last.TurnsTo after ∧
        after.depth = 0 := by
  rw [groupFrom] at hGroup
  fun_induction byTurns with
  | case1 s outcome behind hTurn =>
      cases hGroup
      exact ⟨s, .refl, (topTurn_of_groupTurn hInside).2 hTurn⟩
  | case2 s behind hTurn ih =>
      have hTurns := (topTurn_of_groupTurn hInside).1 hTurn
      rcases ih (.inl hTurns.2) hGroup with ⟨last, hMore, hEnd⟩
      exact ⟨last, .head hTurns hMore, hEnd⟩

/-
  The byte of the first character at the top level that a walk
  looks for is the one in front of which the walk stops.
-/
theorem find?_topsFrom_of_passes
    {halt : Char → Bool}
    {word rest : Text}
    (start : Nat)
    (hBalanced : Text.Balanced word)
    (hPasses : Nesting.outside.Passes halt word)
    (hHalts : Stop.Halts halt rest) :
    (((Mark.topsFrom start (marking (word ++ rest))).find?
          fun next => halt next.2).map Prod.fst).getD
        (start + byteSize (word ++ rest)) =
      start + byteSize word := by
  have hNone :
      (Mark.topsFrom start (marking word)).find?
        (fun next => halt next.2) = none := by
    rw [List.find?_eq_none]
    intro next hMem
    rcases Mark.exists_of_mem_topsFrom hMem with ⟨m, hMark, hTop, hChar⟩
    rw [← hChar, hPasses m hMark hTop]
    exact Bool.false_ne_true
  rw [marking_append rest hBalanced, Mark.topsFrom_append,
    List.find?_append, hNone, Option.none_or, text_marking hBalanced]
  rcases hHalts with rfl | ⟨c, behind, rfl, hPlain, hHalt⟩
  · simp [marking, Nesting.marking, Mark.topsFrom]
  · have hMarks := marking_append_cons behind balanced_nil hPlain
    rw [List.nil_append] at hMarks
    rw [hMarks]
    simp [marking, Nesting.marking, Mark.topsFrom, hHalt]

/- In front of a group the cursor gets out of it by its turns. -/
theorem exists_turns_of_next
    {rest : Text}
    (input : Text)
    (hBalanced : Text.Balanced rest)
    (hOpens : rest.head? = some '(') :
    ∃ last after,
      groupByTurns ⟨input, rest, 0⟩ = (.ok (), after) ∧
        Relation.ReflTransGen TurnsInside ⟨input, rest, 0⟩ last ∧
        last.next? = some ')' ∧ last.TurnsTo after ∧
        after.depth = 0 := by
  rcases List.head?_eq_some_iff.mp hOpens with ⟨inside, rfl⟩
  rcases Stop.exists_group hBalanced
    with ⟨interior, behind, rfl, hInterior, -⟩
  have hPassed :
      groupByTurns ⟨input, '(' :: (interior ++ ')' :: behind), 0⟩ =
        (.ok (), ⟨input, behind, 0⟩) := by
    rw [groupByTurns_eq]
    exact passGroup_of_group (group_eq rfl hInterior)
  rcases exists_turns_of_groupFrom (.inr rfl) hPassed
    with ⟨last, hTurns, hEnd⟩
  exact ⟨last, _, hPassed, hTurns, hEnd⟩

/- An operand ends at the first blank or symbol behind blanks. -/
theorem exists_operand_until
    (front : Text)
    {rest : Text}
    (hBalanced : Text.Balanced rest) :
    ∃ operand after found,
      operandByTurns ⟨front ++ rest, rest, 0⟩ = (.ok operand, after) ∧
        operand =
          Range.slice
            ⟨(skipBlanks ⟨front ++ rest, rest, 0⟩).position,
              after.position⟩ (front ++ rest) ∧
        (skipBlanks ⟨front ++ rest, rest, 0⟩).topChars = .ok found ∧
        after.position =
          ((found.find? fun next =>
                isBlank next.2 || isSymbol next.2).map
              Prod.fst).getD (byteSize (front ++ rest)) := by
  obtain ⟨blanks, hBlank, hRest⟩ :
      ∃ blanks, IsBlank blanks ∧ rest = blanks ++ trimStart rest :=
    ⟨_, isBlank_takeWhile rest, (takeWhile_append_trimStart rest).symm⟩
  have hTrimmed : Text.Balanced (trimStart rest) := by
    rw [hRest, balanced_append_iff (balanced_of_isBlank hBlank)]
      at hBalanced
    exact hBalanced
  rcases Stop.exists_atTop endsOperand hTrimmed
    with ⟨operand, behind, hWord, hOperand, -, hPasses, hHalts, -⟩
  have hRead :=
    operand_eq (s := ⟨front ++ rest, rest, 0⟩) hWord hOperand hPasses
      hHalts
  have hText : front ++ rest = front ++ blanks ++ operand ++ behind := by
    rw [hRest, hWord]
    simp
  have hSkip :
      skipBlanks ⟨front ++ rest, rest, 0⟩ =
        ⟨front ++ rest, operand ++ behind, 0⟩ :=
    congrArg (fun rest' => (⟨front ++ rest, rest', 0⟩ : Cursor)) hWord
  have hChars := topChars_eq (front ++ blanks) (hWord ▸ hTrimmed)
  have hHere :
      position ⟨front ++ rest, operand ++ behind, 0⟩ =
        byteSize (front ++ blanks) := by
    rw [position, hText, List.append_assoc, byteSize_append,
      Nat.add_sub_cancel]
  have hThere :
      position ⟨front ++ rest, behind, 0⟩ =
        byteSize (front ++ blanks) + byteSize operand := by
    rw [position, hText, byteSize_append, Nat.add_sub_cancel,
      byteSize_append]
  rw [← List.append_assoc, ← hText] at hChars
  refine
    ⟨operand, ⟨front ++ rest, behind, 0⟩,
      Mark.topsFrom (byteSize (front ++ blanks))
        (marking (operand ++ behind)),
      ?_, ?_, ?_, ?_⟩
  · rw [operandByTurns_eq]
    exact hRead
  · rw [hSkip, hHere, hThere, hText, Range.slice_append]
  · rw [hSkip]
    exact hChars
  · have hFirst :=
      find?_topsFrom_of_passes (byteSize (front ++ blanks)) hOperand
        hPasses hHalts
    rw [← byteSize_append, ← List.append_assoc, ← hText] at hFirst
    rw [hThere]
    exact hFirst.symm

/-
  The walks of a cursor see the same sections and groups of a
  balanced text. From a place at the top level the walk to the
  end of a group stops where the walk to the top level is out
  of the group, and the walk over an operand at the first
  blank or symbol that this walk finds.
-/
theorem walks_agree
    {t : Text}
    (hBalanced : Text.Balanced t) :
    (∀ s : Cursor,
        s.topByTurns = s.nextTop ∧ s.groupByTurns = s.passGroup ∧
          s.operandByTurns = s.operand) ∧
      (∀ s,
        ReachedIn t s →
          s.depth = 0 →
            (s.next? = some '(' →
              ∃ last after,
                s.groupByTurns = (.ok (), after) ∧
                  Relation.ReflTransGen TurnsInside s last ∧
                  last.next? = some ')' ∧ last.TurnsTo after ∧
                  after.depth = 0) ∧
              ∃ operand after found,
                s.operandByTurns = (.ok operand, after) ∧
                  operand =
                    Range.slice
                      ⟨s.skipBlanks.position, after.position⟩ t ∧
                  s.skipBlanks.topChars = .ok found ∧
                  after.position =
                    ((found.find? fun next =>
                          isBlank next.2 || isSymbol next.2).map
                        Prod.fst).getD (byteSize t)) ∧
      (t.head? = some '(' →
        ∃ interior after,
          (ofText t).groupByTurns = (.ok (), after) ∧
            t = '(' :: (interior ++ ')' :: after.rest) ∧
            Text.Balanced interior ∧
            enclosed? t =
              .ok (if IsBlank after.rest then some interior else none)) := by
  refine ⟨?_, ?_, ?_⟩
  · intro s
    exact ⟨topByTurns_eq s, groupByTurns_eq s, operandByTurns_eq s⟩
  · intro s hReached hDepth
    rcases hReached.exists_run with ⟨hInput, front, hText, hRun⟩
    rcases s with ⟨input, rest, depth⟩
    dsimp only at hDepth hInput hText hRun ⊢
    subst hDepth hInput hText
    have hRest := (balanced_append_iff hRun).mp hBalanced
    exact
      ⟨exists_turns_of_next _ hRest, exists_operand_until front hRest⟩
  · intro hOpens
    rcases List.head?_eq_some_iff.mp hOpens with ⟨inside, rfl⟩
    rcases Stop.exists_group hBalanced
      with ⟨interior, rest, rfl, hInterior, -⟩
    refine
      ⟨interior, ⟨'(' :: (interior ++ ')' :: rest), rest, 0⟩, ?_, rfl,
        hInterior, enclosed?_group rest hInterior⟩
    rw [groupByTurns_eq]
    exact passGroup_of_group (group_eq rfl hInterior)

/- The second group of a text, with parentheses in sections. -/
theorem walks_agree_second :
    ∃ last,
      Relation.ReflTransGen TurnsInside
          ⟨"([)] ')')x([(] 'b)')=c".toList, "([(] 'b)')=c".toList, 0⟩
          last ∧
        last.next? = some ')' ∧
        last.TurnsTo
          ⟨"([)] ')')x([(] 'b)')=c".toList, "=c".toList, 0⟩ ∧
        operandByTurns
            ⟨"([)] ')')x([(] 'b)')=c".toList, "([(] 'b)')=c".toList, 0⟩ =
          (.ok "([(] 'b)')".toList,
            ⟨"([)] ')')x([(] 'b)')=c".toList, "=c".toList, 0⟩) ∧
        enclosed? "([)] ')')x([(] 'b)')=c".toList = .ok none := by
  have hBalanced :
      Text.Balanced "([)] ')')x([(] 'b)')=c".toList := by
    decide +kernel
  have hReached :
      ReachedIn "([)] ')')x([(] 'b)')=c".toList
        ⟨"([)] ')')x([(] 'b)')=c".toList, "([(] 'b)')=c".toList, 0⟩ :=
    .head (.inl rfl) <| .head (.inl rfl) <| .head (.inl rfl) <|
      .head (.inl rfl) <| .head (.inl rfl) <|
      .head (.inr ⟨(9, 'x'), rfl⟩) .refl
  rcases walks_agree hBalanced with ⟨hSame, hPlaces, hEnclosed⟩
  rcases (hPlaces _ hReached rfl).1 rfl
    with ⟨last, after, hPassed, hTurns, hLast, hOut, -⟩
  rcases hEnclosed rfl with ⟨interior, behind, hGroup, -, -, hFound⟩
  obtain rfl : after = ⟨_, "=c".toList, 0⟩ :=
    congrArg Prod.snd (hPassed.symm.trans (hSame _).2.1)
  obtain rfl : behind = ⟨_, "x([(] 'b)')=c".toList, 0⟩ :=
    congrArg Prod.snd (hGroup.symm.trans (hSame _).2.1)
  refine ⟨last, hTurns, hLast, hOut, (hSame _).2.2, ?_⟩
  rw [hFound, if_neg (by decide)]

end Cursor

end SqlSelect
