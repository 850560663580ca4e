import SqlSelect.Cursor.Moves
import SqlSelect.Proofs.Cursor.Walk
import SqlSelect.Proofs.Range.Slices

/-
  Where a cursor can stand. No step takes a cursor out of its
  text, into a character or back, and a step that counts
  groups closes none that is not open. All of this holds of
  steps that fail as well, so it holds of every row of steps.

  Main statements:
    * `Text.excess`
    * `Stop.exists_run_atTop`
    * `Stop.exists_run_afterGroup`
    * `Cursor.StandsIn`
    * `Cursor.Counts`
    * `Cursor.counts_move`
    * `Cursor.standsIn_of_mem_places`
    * `Cursor.pairwise_places`
    * `Cursor.cuts_since`
    * `Cursor.cuts_nextTop`
    * `Cursor.exists_cuts_group`
-/

namespace SqlSelect

------------------------------------------------------------
-- Counting Groups
------------------------------------------------------------

/-
  The number of groups that a text opens, less the number of
  those that it closes. The text begins in the section that
  `closer` ends, if any. What is in a section does not count.
-/
def Text.excess : Option Char → Text → Int
  | _, [] => 0
  | some q, c :: rest => excess (if c = q then none else some q) rest
  | none, c :: rest =>
      match closerOf? c with
      | some q => excess (some q) rest
      | none =>
          if c = '(' then excess none rest + 1
          else if c = ')' then excess none rest - 1
          else excess none rest

namespace Nesting

variable {n m next : Nesting}
variable {c : Char}
variable {t : Text}

/- A step changes the depth by what the character counts. -/
theorem excess_cons
    (hStep : n.step c = some next) :
    (n.depth : Int) + Text.excess n.closer (c :: t) =
      next.depth + Text.excess next.closer t := by
  cases step_eq_some_iff.mp hStep with
  | inside depth hOther => rw [Text.excess, if_neg hOther]
  | closes => rw [Text.excess, if_pos rfl]
  | opens depth hOpens => simp only [Text.excess, hOpens]
  | groupStart depth =>
      have hCounts :
          Text.excess none ('(' :: t) = Text.excess none t + 1 := rfl
      push_cast
      omega
  | groupEnd depth =>
      have hCounts :
          Text.excess none (')' :: t) = Text.excess none t - 1 := rfl
      push_cast
      omega
  | plain depth hPlain =>
      rcases not_isDelimiter_iff.mp hPlain with ⟨hNone, hLeft, hRight⟩
      simp [Text.excess, hNone, hLeft, hRight]

/-
  The depth that a walk ends with is the one that it began
  with and the groups counted, by induction on the text.
-/
theorem depth_of_run
    (hRun : n.run t = some m) :
    (m.depth : Int) = n.depth + Text.excess n.closer t := by
  induction t generalizing n with
  | nil =>
      rw [run_nil, Option.some.injEq] at hRun
      simp [hRun, Text.excess]
  | cons c t ih =>
      rcases exists_step_of_run hRun with ⟨next, hStep, hRest⟩
      rw [ih hRest, excess_cons hStep]

end Nesting

------------------------------------------------------------
-- Walks
------------------------------------------------------------

namespace Stop

/-
  A walk to the top level goes over a part of the text as the
  nesting does, wherever it stops. By induction on the text:
  the walk is stuck, or has found what it looks for, or goes
  on behind a character.
-/
theorem exists_run_atTop
    (halt : Char → Bool)
    (n : Nesting)
    (t : Text) :
    ∃ passed m,
      t = passed ++ (atTop halt n.closer n.depth t).rest ∧
        n.run passed = some m ∧ n.Passes halt passed ∧
        m.depth = (atTop halt n.closer n.depth t).depth ∧
        ((atTop halt n.closer n.depth t).reached = true →
          m = Nesting.outside ∧
            Halts halt (atTop halt n.closer n.depth t).rest) := by
  have hNothing (n : Nesting) : n.Passes halt [] :=
    Nesting.passes_nil halt n
  induction t generalizing n with
  | nil =>
      rcases n with ⟨_ | q, _ | depth⟩
      · exact
          ⟨[], _, rfl, rfl, hNothing _, rfl, fun _ => ⟨rfl, .inl rfl⟩⟩
      all_goals
        exact
          ⟨[], _, rfl, rfl, hNothing _, rfl,
            fun hReached => by cases hReached⟩
  | cons c t ih =>
      cases hStep : n.step c with
      | none =>
          rcases Nesting.step_eq_none_iff.mp hStep with ⟨rfl, rfl⟩
          exact
            ⟨[], _, rfl, rfl, hNothing _, rfl,
              fun hReached => by cases hReached⟩
      | some next =>
          by_cases hFound : n.IsTop c ∧ halt c = true
          · rcases hFound with ⟨⟨rfl, hPlain⟩, hHalt⟩
            have hHalts : Halts halt (c :: t) :=
              .inr ⟨c, t, rfl, hPlain, hHalt⟩
            have hStop :
                atTop halt Nesting.outside.closer Nesting.outside.depth
                    (c :: t) = ⟨true, 0, c :: t⟩ :=
              atTop_of_halts hHalts
            rw [hStop]
            exact
              ⟨[], _, rfl, rfl, hNothing _, rfl, fun _ => ⟨rfl, hHalts⟩⟩
          · have hPasses : n.IsTop c → halt c = false := by
              simpa using hFound
            rw [atTop_cons t hStep hPasses]
            rcases ih next with
              ⟨passed, m, hText, hRun, hNone, hDepth, hReached⟩
            refine ⟨c :: passed, m, ?_, ?_, ?_, hDepth, hReached⟩
            · exact congrArg (List.cons c) hText
            · rw [Nesting.run_cons, hStep]
              exact hRun
            · exact (Nesting.passes_cons hStep).mpr ⟨hPasses, hNone⟩

/- A walk to the end of a group, wherever it stops. -/
theorem exists_run_afterGroup
    (n : Nesting)
    (t : Text) :
    ∃ passed m,
      t = passed ++ (afterGroup n.closer n.depth t).rest ∧
        n.run passed = some m ∧
        m.depth = (afterGroup n.closer n.depth t).depth ∧
        ((afterGroup n.closer n.depth t).reached = true →
          ∃ front,
            passed = front ++ [')'] ∧ n.run front = some ⟨none, 1⟩) := by
  induction t generalizing n with
  | nil =>
      rcases n with ⟨_ | q, depth⟩
      all_goals
        exact ⟨[], _, rfl, rfl, rfl, fun hReached => by cases hReached⟩
  | cons c t ih =>
      cases hStep : n.step c with
      | none =>
          rcases Nesting.step_eq_none_iff.mp hStep with ⟨rfl, rfl⟩
          exact ⟨[], _, rfl, rfl, rfl, fun hReached => by cases hReached⟩
      | some next =>
          by_cases hEnd : n = ⟨none, 1⟩ ∧ c = ')'
          · rcases hEnd with ⟨rfl, rfl⟩
            exact
              ⟨[')'], Nesting.outside, rfl, rfl, rfl,
                fun _ => ⟨[], rfl, rfl⟩⟩
          · rw [afterGroup_of_step t hStep hEnd]
            rcases ih next with ⟨passed, m, hText, hRun, hDepth, hReached⟩
            refine ⟨c :: passed, m, ?_, ?_, hDepth, ?_⟩
            · exact congrArg (List.cons c) hText
            · rw [Nesting.run_cons, hStep]
              exact hRun
            · intro hThere
              rcases hReached hThere with ⟨front, rfl, hFront⟩
              refine ⟨c :: front, rfl, ?_⟩
              rw [Nesting.run_cons, hStep]
              exact hFront

end Stop

------------------------------------------------------------
-- Places
------------------------------------------------------------

namespace Text

theorem byteSize_le_of_suffix
    {s t : Text}
    (hSuffix : s <:+ t) :
    byteSize s ≤ byteSize t := by
  rcases hSuffix with ⟨front, rfl⟩
  simp

end Text

/- The step counts the groups that it goes over. -/
def Move.countsGroups : Move → Bool
  | .passGroup => true
  | .nextTop => true
  | .operand => true
  | _ => false

namespace Cursor

/-
  The cursor stands in the text: what is left of the text is
  the end of it.
-/
structure StandsIn
    (t : Text)
    (s : Cursor) : Prop where
  input : s.input = t
  rest : s.rest <:+ t

variable {t : Text}
variable {s after : Cursor}

theorem standsIn_ofText
    (t : Text) :
    StandsIn t (ofText t) :=
  ⟨rfl, List.suffix_refl t⟩

theorem position_ofText
    (t : Text) :
    (ofText t).position = 0 :=
  Nat.sub_self (Text.byteSize t)

/- A cursor in a text has the size of what is in front of it. -/
theorem StandsIn.exists_front
    (hStands : StandsIn t s) :
    ∃ front,
      t = front ++ s.rest ∧ s.position = Text.byteSize front := by
  rcases hStands with ⟨hInput, front, hText⟩
  refine ⟨front, hText.symm, ?_⟩
  rw [position, hInput, ← hText, Text.byteSize_append]
  omega

theorem StandsIn.isBoundary
    (hStands : StandsIn t s) :
    t.IsBoundary s.position ∧ s.position ≤ Text.byteSize t := by
  rcases hStands.exists_front with ⟨front, hText, hPosition⟩
  rw [hPosition]
  have hPrefix : front <+: t := ⟨s.rest, hText.symm⟩
  exact
    ⟨Text.isBoundary_front hPrefix,
      Text.byteSize_front_le hPrefix⟩

/- The later of two cursors has less of the text left. -/
def Precedes
    (s later : Cursor) : Prop :=
  later.input = s.input ∧ later.rest <:+ s.rest

theorem Precedes.trans
    {later : Cursor}
    (hFirst : s.Precedes after)
    (hSecond : after.Precedes later) :
    s.Precedes later :=
  ⟨hSecond.1.trans hFirst.1, hSecond.2.trans hFirst.2⟩

theorem Precedes.position_le
    (hPrecedes : s.Precedes after) :
    s.position ≤ after.position := by
  have hSize := Text.byteSize_le_of_suffix hPrecedes.2
  rw [position, position, hPrecedes.1]
  omega

theorem Precedes.standsIn
    (hPrecedes : s.Precedes after)
    (hStands : StandsIn t s) :
    StandsIn t after :=
  ⟨hPrecedes.1.trans hStands.input, hPrecedes.2.trans hStands.rest⟩

------------------------------------------------------------
-- Steps
------------------------------------------------------------

theorem precedes_skipWhile
    (p : Char → Bool)
    (s : Cursor) :
    s.Precedes (s.skipWhile p) :=
  ⟨rfl, List.dropWhile_suffix p⟩

theorem precedes_afterKeyword?
    {keyword : Text}
    (hAfter : s.afterKeyword? keyword = some after) :
    s.Precedes after := by
  rcases Option.map_eq_some_iff.mp hAfter with ⟨length, -, rfl⟩
  exact
    ⟨rfl, (List.drop_suffix _ _).trans (precedes_skipWhile isBlank s).2⟩

theorem precedes_nextTop
    (s : Cursor) :
    s.Precedes s.nextTop.2 := by
  have hSuffix :=
    Stop.atTop_rest_suffix (fun _ => true) none s.depth s.rest
  simp only [nextTop, moveTo]
  split
  · rename_i e hError
    exact ⟨rfl, hSuffix⟩
  · exact ⟨rfl, (List.tail_suffix _).trans hSuffix⟩

/- A step leads forward in the text, whether it fails or not. -/
theorem precedes_move
    (s : Cursor)
    (step : Move) :
    s.Precedes (s.move step).2 := by
  cases step with
  | next => exact ⟨rfl, List.suffix_refl _⟩
  | advance => exact ⟨rfl, List.tail_suffix _⟩
  | skipBlanks => exact precedes_skipWhile isBlank s
  | passGroup => exact ⟨rfl, Stop.afterGroup_rest_suffix none 0 s.rest⟩
  | nextTop => exact precedes_nextTop s
  | operand =>
      exact
        ⟨rfl,
          (Stop.atTop_rest_suffix _ none 0 s.skipBlanks.rest).trans
            (precedes_skipWhile isBlank s).2⟩
  | word => exact precedes_skipWhile isNameChar s
  | symbol => exact precedes_skipWhile isSymbol s
  | keyword keyword =>
      rw [move]
      split
      · rename_i after hAfter
        exact precedes_afterKeyword? hAfter
      · exact ⟨rfl, List.suffix_refl _⟩
  | atChar c => exact precedes_skipWhile isBlank s

/-
  The cursor has gone on to another, counting the groups on
  its way: the depth changes by what they come to, and it was
  not below zero at any place between the two.
-/
def Counts
    (s after : Cursor) : Prop :=
  ∃ passed,
    s.rest = passed ++ after.rest ∧
      (after.depth : Int) = s.depth + Text.excess none passed ∧
      ∀ front, front <+: passed →
        0 ≤ (s.depth : Int) + Text.excess none front

theorem counts_of_run
    {passed : Text}
    {m : Nesting}
    (hRest : s.rest = passed ++ after.rest)
    (hRun : Nesting.run ⟨none, s.depth⟩ passed = some m)
    (hDepth : m.depth = after.depth) :
    s.Counts after := by
  refine ⟨passed, hRest, ?_, ?_⟩
  · rw [← hDepth]
    exact Nesting.depth_of_run hRun
  · rintro front ⟨behind, rfl⟩
    rw [Nesting.run_append] at hRun
    rcases Option.bind_eq_some_iff.mp hRun with ⟨between, hFront, -⟩
    have hBetween := Nesting.depth_of_run hFront
    dsimp only at hBetween
    omega

/- A walk that counts from zero counts from any depth. -/
theorem counts_of_run_outside
    {passed : Text}
    {m : Nesting}
    (hRest : s.rest = passed ++ after.rest)
    (hRun : Nesting.outside.run passed = some m)
    (hDepth : after.depth = s.depth + m.depth) :
    s.Counts after := by
  have hDeeper := Nesting.run_deeper s.depth hRun
  have hStart :
      Nesting.outside.deeper s.depth = ⟨none, s.depth⟩ := by
    simp [Nesting.deeper, Nesting.outside]
  rw [hStart] at hDeeper
  refine counts_of_run hRest hDeeper ?_
  rw [hDepth, Nesting.deeper, Nat.add_comm]

theorem counts_passGroup
    (s : Cursor) :
    s.Counts s.passGroup.2 := by
  rcases Stop.exists_run_afterGroup Nesting.outside s.rest with
    ⟨passed, m, hRest, hRun, hDepth, -⟩
  refine counts_of_run_outside hRest hRun ?_
  rw [hDepth]
  rfl

theorem counts_operand
    (s : Cursor) :
    s.Counts s.operand.2 := by
  rcases
    Stop.exists_run_atTop (fun c => isBlank c || isSymbol c)
      Nesting.outside s.skipBlanks.rest
    with ⟨passed, m, hRest, hRun, -, hDepth, -⟩
  have hBlank : Text.Balanced (s.rest.takeWhile isBlank) :=
    Text.balanced_of_isBlank (Text.isBlank_takeWhile s.rest)
  have hWhole :
      s.rest =
        (s.rest.takeWhile isBlank ++ passed) ++ s.operand.2.rest := by
    have hSplit := Text.takeWhile_append_trimStart s.rest
    rw [List.append_assoc]
    exact hSplit.symm.trans (congrArg _ hRest)
  refine counts_of_run_outside hWhole (m := m) ?_ ?_
  · rw [Nesting.run_append, hBlank]
    exact hRun
  · rw [hDepth]
    rfl

/-
  Where the walk to the next character at the top level ends:
  at the end of the text, in front of the character, or where
  the text was found at fault.
-/
theorem counts_nextTop
    (s : Cursor) :
    s.Counts s.nextTop.2 := by
  rcases
    Stop.exists_run_atTop (fun _ => true) ⟨none, s.depth⟩ s.rest
    with ⟨passed, m, hRest, hRun, -, hDepth, hReached⟩
  dsimp only at hRest hDepth hReached
  simp only [nextTop, moveTo]
  split
  · exact counts_of_run hRest hRun hDepth
  · rename_i hOk
    split_ifs at hOk with hThere
    rcases hReached hThere with ⟨rfl, hEnd | ⟨c, rest, hNext, hPlain, -⟩⟩
    · refine counts_of_run ?_ hRun hDepth
      simp only [advance, hEnd, List.tail_nil]
      rw [hEnd] at hRest
      exact hRest
    · have hPassed :
          Nesting.run ⟨none, s.depth⟩ (passed ++ [c]) =
            some Nesting.outside := by
        rw [Nesting.run_append, hRun]
        exact Nesting.run_of_plain rfl (by simpa using hPlain)
      refine counts_of_run ?_ hPassed hDepth
      simp only [advance, hNext, List.tail_cons]
      rw [hNext] at hRest
      simpa using hRest

theorem counts_move
    {step : Move}
    (s : Cursor)
    (hCounts : step.countsGroups = true) :
    s.Counts (s.move step).2 := by
  cases step with
  | passGroup => exact counts_passGroup s
  | nextTop => exact counts_nextTop s
  | operand => exact counts_operand s
  | _ => cases hCounts

/- The other steps leave the number of open groups. -/
theorem depth_move
    {step : Move}
    (s : Cursor)
    (hOther : step.countsGroups = false) :
    (s.move step).2.depth = s.depth := by
  cases step with
  | passGroup => cases hOther
  | nextTop => cases hOther
  | operand => cases hOther
  | keyword keyword =>
      rw [move]
      split
      · rename_i after hAfter
        rcases Option.map_eq_some_iff.mp hAfter with ⟨length, -, rfl⟩
        rfl
      · rfl
  | _ => rfl

------------------------------------------------------------
-- Rows of Steps
------------------------------------------------------------

/- The cursors that a row of steps goes through. -/
def places
    (s : Cursor)
    (steps : List Move) : List Cursor :=
  s :: (s.moves steps).map Prod.snd

theorem places_cons
    (s : Cursor)
    (step : Move)
    (steps : List Move) :
    s.places (step :: steps) = s :: (s.move step).2.places steps := rfl

/- Behind a cursor there are later ones only, by induction on the steps. -/
theorem precedes_of_mem_places
    {steps : List Move}
    {later : Cursor}
    (hMem : later ∈ s.places steps) :
    s.Precedes later := by
  induction steps generalizing s with
  | nil =>
      rw [List.mem_singleton.mp hMem]
      exact ⟨rfl, List.suffix_refl _⟩
  | cons step steps ih =>
      rw [places_cons] at hMem
      rcases List.mem_cons.mp hMem with rfl | hMem
      · exact ⟨rfl, List.suffix_refl _⟩
      · exact (precedes_move s step).trans (ih hMem)

theorem pairwise_places
    (s : Cursor)
    (steps : List Move) :
    (s.places steps).Pairwise Precedes := by
  induction steps generalizing s with
  | nil => exact List.pairwise_singleton _ _
  | cons step steps ih =>
      rw [places_cons]
      refine List.pairwise_cons.mpr ⟨?_, ih _⟩
      intro later hMem
      exact (precedes_move s step).trans (precedes_of_mem_places hMem)

theorem standsIn_of_mem_places
    {steps : List Move}
    (hMem : s ∈ (ofText t).places steps) :
    StandsIn t s :=
  (precedes_of_mem_places hMem).standsIn (standsIn_ofText t)

------------------------------------------------------------
-- What Steps Find
------------------------------------------------------------

/- The text that is passed from one cursor to another. -/
theorem position_of_append
    {passed : Text}
    (hStands : StandsIn t s)
    (hInput : after.input = s.input)
    (hRest : s.rest = passed ++ after.rest) :
    after.position = s.position + Text.byteSize passed := by
  rcases hStands.exists_front with ⟨front, hText, hPosition⟩
  rw [hPosition, position, hInput, hStands.input, hText, hRest,
    Text.byteSize_append, Text.byteSize_append]
  omega

theorem cuts_passed
    {passed : Text}
    (hStands : StandsIn t s)
    (hInput : after.input = s.input)
    (hRest : s.rest = passed ++ after.rest) :
    Range.Cuts ⟨s.position, after.position⟩ t passed := by
  rcases hStands.exists_front with ⟨front, hText, hPosition⟩
  rw [position_of_append hStands hInput hRest, hPosition]
  have hSplit : t = front ++ passed ++ after.rest := by
    rw [hText, hRest, List.append_assoc]
  exact Range.cuts_of_append hSplit

theorem rest_of_precedes
    (hPrecedes : s.Precedes after) :
    s.rest = since s after ++ after.rest := by
  rcases hPrecedes.2 with ⟨passed, hRest⟩
  rw [since_of_append hRest.symm, hRest]

/- What is between two cursors is a range of the text. -/
theorem cuts_since
    (hStands : StandsIn t s)
    (hPrecedes : s.Precedes after) :
    Range.Cuts ⟨s.position, after.position⟩ t (since s after) :=
  cuts_passed hStands hPrecedes.1 (rest_of_precedes hPrecedes)

/- The byte that is told is the one of the character. -/
theorem cuts_nextTop
    {byte : Nat}
    {c : Char}
    (hStands : StandsIn t s)
    (hFound : s.nextTop = (.ok (some (byte, c)), after)) :
    s.position ≤ byte ∧
      Range.Cuts ⟨byte, after.position⟩ t [c] := by
  simp only [nextTop, moveTo] at hFound
  split_ifs at hFound with hThere
  · let before : Cursor :=
      { s with
        rest := (Stop.atTop (fun _ => true) none s.depth s.rest).rest
        depth := (Stop.atTop (fun _ => true) none s.depth s.rest).depth }
    have hBefore : s.Precedes before :=
      ⟨rfl, Stop.atTop_rest_suffix _ none s.depth s.rest⟩
    have hStop : StandsIn t before := hBefore.standsIn hStands
    simp only [Prod.mk.injEq, Except.ok.injEq, Option.map_eq_some_iff,
      advance, next?] at hFound
    rcases hFound with ⟨⟨d, hNext, hByte, rfl⟩, rfl⟩
    have hRest : before.rest = [d] ++ before.rest.tail :=
      (List.cons_head?_tail hNext).symm
    rw [← hByte]
    exact ⟨hBefore.position_le, cuts_passed hStop rfl hRest⟩
  · cases hFound

/-
  A group that is passed is read, with the text between its
  two parentheses.
-/
theorem exists_group_of_passGroup
    (hOpens : s.next? = some '(')
    (hPassed : s.passGroup = (.ok (), after)) :
    ∃ interior,
      s.group = .ok (interior, after) ∧
        s.rest = '(' :: (interior ++ ')' :: after.rest) ∧
        after.input = s.input := by
  rcases Stop.exists_run_afterGroup Nesting.outside s.rest with
    ⟨passed, m, hRest, -, -, hReached⟩
  have hStop := hPassed
  simp only [passGroup, moveTo, Prod.mk.injEq] at hStop
  rcases hStop with ⟨hOk, rfl⟩
  split_ifs at hOk with hThere
  rcases hReached hThere with ⟨front, rfl, hFront⟩
  cases front with
  | nil => cases hFront
  | cons c interior =>
      have hParen : c = '(' := by
        rw [next?, hRest] at hOpens
        exact Option.some.inj hOpens
      subst hParen
      refine ⟨interior, ?_, hRest.trans (by simp [Nesting.outside]), rfl⟩
      simp only [group, hPassed, Except.map]
      rw [since_of_append hRest]
      simp [Text.inner]

/- A group that is read was passed. -/
theorem passGroup_of_group
    {interior : Text}
    (hGroup : s.group = .ok (interior, after)) :
    s.passGroup = (.ok (), after) := by
  rcases map_eq_ok_iff.mp hGroup with ⟨⟨⟩, hOk, hEq⟩
  exact Prod.ext hOk (Prod.mk.inj hEq).2

/-
  A group that is passed is the range from its opening to its
  closing parenthesis, and its interior is what is left of it
  without a byte at either end.
-/
theorem exists_cuts_group
    (hStands : StandsIn t s)
    (hOpens : s.next? = some '(')
    (hPassed : s.passGroup = (.ok (), after)) :
    ∃ interior,
      s.group = .ok (interior, after) ∧
        Range.Cuts ⟨s.position + 1, after.position - 1⟩ t interior := by
  rcases exists_group_of_passGroup hOpens hPassed with
    ⟨interior, hGroup, hRest, hInput⟩
  refine ⟨interior, hGroup, ?_⟩
  have hWhole :
      s.rest = ('(' :: (interior ++ [')'])) ++ after.rest := by
    simpa using hRest
  rcases hStands.exists_front with ⟨front, hText, hPosition⟩
  have hSplit : t = (front ++ ['(']) ++ interior ++ ')' :: after.rest := by
    rw [hText, hRest]
    simp
  have hLeft : Char.utf8Size '(' = 1 := by decide
  have hRight : Char.utf8Size ')' = 1 := by decide
  have hStart :
      Text.byteSize (front ++ ['(']) = s.position + 1 := by
    simp [hPosition, hLeft]
  have hStop :
      Text.byteSize (front ++ ['(']) + Text.byteSize interior =
        after.position - 1 := by
    rw [position_of_append hStands hInput hWhole, hPosition]
    simp only [Text.byteSize_append, Text.byteSize_cons,
      Text.byteSize_nil, hLeft, hRight]
    omega
  have hCuts := Range.cuts_of_append hSplit
  rwa [hStop, hStart] at hCuts

end Cursor

end SqlSelect
