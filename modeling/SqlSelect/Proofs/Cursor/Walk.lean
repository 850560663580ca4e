import SqlSelect.Proofs.Nesting.Division

/-
  Cursors in balanced texts. A walk to the top level passes
  balanced text up to the character that it looks for, and a
  group that opens is closed again further on, so no cursor
  finds a fault in a balanced text.

  Main statements:
    * `Nesting.Passes`
    * `Stop.Halts`
    * `Stop.atTop_of_passes`
    * `Stop.exists_atTop`
    * `Stop.exists_group`
    * `Cursor.afterKeyword?_eq_some_iff`
    * `Cursor.group_eq`
    * `Cursor.operand_eq`
    * `Text.enclosed?_group`
    * `Text.exists_call?`
-/

namespace SqlSelect

------------------------------------------------------------
-- Walks to the Top Level
------------------------------------------------------------

namespace Nesting

/-
  No character of the text that `halt` picks is at the top
  level.
-/
def Passes
    (halt : Char → Bool)
    (n : Nesting)
    (t : Text) : Prop :=
  ∀ m ∈ n.marking t, m.top = true → halt m.char = false

theorem passes_nil
    (halt : Char → Bool)
    (n : Nesting) :
    Passes halt n [] :=
  fun _ hMem => absurd hMem List.not_mem_nil

theorem passes_cons
    {halt : Char → Bool}
    {n next : Nesting}
    {c : Char}
    {t : Text}
    (hStep : n.step c = some next) :
    Passes halt n (c :: t) ↔
      (n.IsTop c → halt c = false) ∧ Passes halt next t := by
  simp [Passes, marking_cons _ hStep]

/- A walk passes what has no mark at the top level. -/
theorem passes_of_hidden
    {halt : Char → Bool}
    {n : Nesting}
    {t : Text}
    (hHidden : Hidden (n.marking t)) :
    Passes halt n t := by
  intro m hMem hTop
  rw [hHidden m hMem] at hTop
  exact absurd hTop (by decide)

/- A walk passes text in which there is nothing to look for. -/
theorem passes_of_forall
    {halt : Char → Bool}
    {n m : Nesting}
    {t : Text}
    (hRun : n.run t = some m)
    (hNone : ∀ c ∈ t, halt c = false) :
    Passes halt n t := by
  intro mark hMem _
  apply hNone
  rw [← text_marking hRun]
  exact List.mem_map_of_mem hMem

end Nesting

namespace Stop

/-
  A walk to the top level stops in front of the text: there
  is nothing left, or what it looks for comes next.
-/
def Halts
    (halt : Char → Bool)
    (t : Text) : Prop :=
  t = [] ∨
    ∃ c rest,
      t = c :: rest ∧ ¬ IsDelimiter c ∧ halt c = true

/- A step of the walk where no section is open. -/
theorem atTop_none_cons
    (halt : Char → Bool)
    (depth : Nat)
    (c : Char)
    (t : Text) :
    atTop halt none depth (c :: t) =
      match closerOf? c with
      | some q => atTop halt (some q) depth t
      | none =>
          if c = '(' then atTop halt none (depth + 1) t
          else if c = ')' then
            match depth with
            | 0 => ⟨false, 0, c :: t⟩
            | fewer + 1 => atTop halt none fewer t
          else if depth = 0 ∧ halt c = true then
            ⟨true, 0, c :: t⟩
          else atTop halt none depth t := by
  cases depth <;> rfl

/- A walk to the top level steps over what it does not look for. -/
theorem atTop_cons
    {halt : Char → Bool}
    {n next : Nesting}
    {c : Char}
    (t : Text)
    (hStep : n.step c = some next)
    (hPasses : n.IsTop c → halt c = false) :
    atTop halt n.closer n.depth (c :: t) =
      atTop halt next.closer next.depth t := by
  cases Nesting.step_eq_some_iff.mp hStep with
  | inside depth hOther => rw [atTop, if_neg hOther]
  | closes => rw [atTop, if_pos rfl]
  | opens depth hOpens => rw [atTop_none_cons, hOpens]
  | groupStart depth => exact atTop_none_cons halt depth '(' t
  | groupEnd depth => rfl
  | plain depth hPlain =>
      have hGoesOn : ¬ (depth = 0 ∧ halt c = true) := by
        rintro ⟨rfl, hHalt⟩
        rw [hPasses ⟨rfl, hPlain⟩] at hHalt
        cases hHalt
      rcases not_isDelimiter_iff.mp hPlain with ⟨hNone, hLeft, hRight⟩
      rw [atTop_none_cons, hNone]
      simp only [if_neg hLeft, if_neg hRight, if_neg hGoesOn]

/- A walk goes on behind what it passes. -/
theorem atTop_append
    {halt : Char → Bool}
    {n m : Nesting}
    {s : Text}
    (t : Text)
    (hRun : n.run s = some m)
    (hPasses : n.Passes halt s) :
    atTop halt n.closer n.depth (s ++ t) =
      atTop halt m.closer m.depth t := by
  induction s generalizing n with
  | nil =>
      rw [Nesting.run_nil, Option.some.injEq] at hRun
      rw [hRun, List.nil_append]
  | cons c s ih =>
      rcases Nesting.exists_step_of_run hRun
        with ⟨next, hStep, hRest⟩
      rw [Nesting.passes_cons hStep] at hPasses
      rw [List.cons_append, atTop_cons _ hStep hPasses.1]
      exact ih hRest hPasses.2

theorem atTop_of_halts
    {halt : Char → Bool}
    {t : Text}
    (hHalts : Halts halt t) :
    atTop halt none 0 t = ⟨true, 0, t⟩ := by
  rcases hHalts with rfl | ⟨c, rest, rfl, hPlain, hHalt⟩
  · rfl
  · rcases not_isDelimiter_iff.mp hPlain with ⟨hNone, hLeft, hRight⟩
    rw [atTop]
    simp [hNone, hLeft, hRight, hHalt]

/- Where a walk stops that passes the text in front. -/
theorem atTop_of_passes
    {halt : Char → Bool}
    {s t : Text}
    (hBalanced : Text.Balanced s)
    (hPasses : Nesting.outside.Passes halt s)
    (hHalts : Halts halt t) :
    atTop halt none 0 (s ++ t) = ⟨true, 0, t⟩ := by
  have hRest := atTop_append t hBalanced hPasses
  rw [show Nesting.outside.closer = none from rfl,
    show Nesting.outside.depth = 0 from rfl] at hRest
  rw [hRest, atTop_of_halts hHalts]

/-
  A walk over the rest of a balanced text passes a part of it
  and stops, by induction on the text.
-/
theorem exists_passes
    (halt : Char → Bool)
    {n : Nesting}
    {t : Text}
    (hRun : n.run t = some Nesting.outside) :
    ∃ s rest,
      t = s ++ rest ∧ n.run s = some Nesting.outside ∧
        n.Passes halt s ∧ Halts halt rest := by
  induction t generalizing n with
  | nil =>
      exact
        ⟨[], [], rfl, hRun, Nesting.passes_nil halt n,
          Or.inl rfl⟩
  | cons c t ih =>
      rcases Nesting.exists_step_of_run hRun
        with ⟨next, hStep, hRest⟩
      by_cases hFound : n.IsTop c ∧ halt c = true
      · rcases hFound with ⟨⟨hOutside, hPlain⟩, hHalt⟩
        refine
          ⟨[], c :: t, rfl, ?_, Nesting.passes_nil halt n,
            Or.inr ⟨c, t, rfl, hPlain, hHalt⟩⟩
        rw [hOutside]
        rfl
      · rcases ih hRest
          with ⟨s, rest, rfl, hFront, hPasses, hHalts⟩
        refine ⟨c :: s, rest, rfl, ?_, ?_, hHalts⟩
        · rw [Nesting.run_cons, hStep]
          exact hFront
        · rw [Nesting.passes_cons hStep]
          refine ⟨?_, hPasses⟩
          intro hTop
          rw [not_and, Bool.not_eq_true] at hFound
          exact hFound hTop

theorem exists_atTop
    (halt : Char → Bool)
    {t : Text}
    (hBalanced : Text.Balanced t) :
    ∃ s rest,
      t = s ++ rest ∧ Text.Balanced s ∧ Text.Balanced rest ∧
        Nesting.outside.Passes halt s ∧ Halts halt rest ∧
        atTop halt none 0 t = ⟨true, 0, rest⟩ := by
  rcases exists_passes halt hBalanced
    with ⟨s, rest, rfl, hFront, hPasses, hHalts⟩
  have hRest : Text.Balanced rest :=
    (Text.balanced_append_iff hFront).mp hBalanced
  exact
    ⟨s, rest, rfl, hFront, hRest, hPasses, hHalts,
      atTop_of_passes hFront hPasses hHalts⟩

------------------------------------------------------------
-- Groups
------------------------------------------------------------

/-
  A walk inside of a group comes to its end, by induction on
  the text.
-/
theorem exists_group_end
    {n : Nesting}
    {t : Text}
    (hRun : (n.deeper 1).run t = some Nesting.outside) :
    ∃ s rest,
      t = s ++ ')' :: rest ∧
        n.run s = some Nesting.outside ∧
        Text.Balanced rest := by
  induction t generalizing n with
  | nil =>
      rw [Nesting.run_nil, Option.some.injEq] at hRun
      have hDepth := congrArg Nesting.depth hRun
      simp [Nesting.deeper, Nesting.outside] at hDepth
  | cons c t ih =>
      rcases Nesting.exists_step_of_run hRun
        with ⟨next, hStep, hRest⟩
      by_cases hEnd : n = Nesting.outside ∧ c = ')'
      · rcases hEnd with ⟨rfl, rfl⟩
        have hNext : Nesting.outside = next :=
          Option.some.inj hStep
        subst hNext
        exact ⟨[], t, rfl, rfl, hRest⟩
      · have hInside : ∃ m, n.step c = some m := by
          cases hInner : n.step c with
          | some m => exact ⟨m, rfl⟩
          | none => exact absurd (Nesting.step_eq_none_iff.mp hInner) hEnd
        rcases hInside with ⟨m, hInner⟩
        have hNext : m.deeper 1 = next := by
          rw [Nesting.step_deeper 1 hInner] at hStep
          exact Option.some.inj hStep
        subst hNext
        rcases ih hRest with ⟨s, rest, rfl, hFront, hBehind⟩
        refine ⟨c :: s, rest, rfl, ?_, hBehind⟩
        rw [Nesting.run_cons, hInner]
        exact hFront

/- A group that opens in a balanced text is closed in it. -/
theorem exists_group
    {t : Text}
    (hBalanced : Text.Balanced ('(' :: t)) :
    ∃ interior rest,
      t = interior ++ ')' :: rest ∧
        Text.Balanced interior ∧ Text.Balanced rest :=
  exists_group_end (n := Nesting.outside) hBalanced

/- A step of the walk in a group where no section is open. -/
theorem afterGroup_none_cons
    (depth : Nat)
    (c : Char)
    (t : Text) :
    afterGroup none (depth + 1) (c :: t) =
      match closerOf? c with
      | some q => afterGroup (some q) (depth + 1) t
      | none =>
          if c = '(' then afterGroup none (depth + 2) t
          else if c = ')' then
            match depth with
            | 0 => ⟨true, 0, t⟩
            | fewer + 1 => afterGroup none (fewer + 1) t
          else afterGroup none (depth + 1) t := by
  cases depth <;> rfl

/- A walk to the end of a group goes on unless it is there. -/
theorem afterGroup_of_step
    {n next : Nesting}
    {c : Char}
    (t : Text)
    (hStep : n.step c = some next)
    (hInside : ¬ (n = ⟨none, 1⟩ ∧ c = ')')) :
    afterGroup n.closer n.depth (c :: t) =
      afterGroup next.closer next.depth t := by
  cases Nesting.step_eq_some_iff.mp hStep with
  | inside depth hOther => rw [afterGroup, if_neg hOther]
  | closes => rw [afterGroup, if_pos rfl]
  | opens depth hOpens => simp [afterGroup, hOpens]
  | groupStart => rfl
  | groupEnd depth =>
      cases depth with
      | zero => exact absurd ⟨rfl, rfl⟩ hInside
      | succ depth => rfl
  | plain depth hPlain =>
      rcases not_isDelimiter_iff.mp hPlain with ⟨hNone, hLeft, hRight⟩
      simp [afterGroup, hNone, hLeft, hRight]

theorem afterGroup_cons
    {n next : Nesting}
    {c : Char}
    (t : Text)
    (hStep : n.step c = some next) :
    afterGroup n.closer (n.depth + 1) (c :: t) =
      afterGroup next.closer (next.depth + 1) t := by
  refine afterGroup_of_step t (Nesting.step_deeper 1 hStep) ?_
  rintro ⟨hEnd, rfl⟩
  have hOutside : n = Nesting.outside := by
    rcases n with ⟨closer, depth⟩
    simpa [Nesting.deeper, Nesting.outside] using hEnd
  rw [Nesting.step_eq_none_iff.mpr ⟨hOutside, rfl⟩] at hStep
  cases hStep

theorem afterGroup_append
    {n : Nesting}
    {s : Text}
    (t : Text)
    (hRun : n.run s = some Nesting.outside) :
    afterGroup n.closer (n.depth + 1) (s ++ ')' :: t) =
      ⟨true, 0, t⟩ := by
  induction s generalizing n with
  | nil =>
      rw [Nesting.run_nil, Option.some.injEq] at hRun
      rw [hRun]
      rfl
  | cons c s ih =>
      rcases Nesting.exists_step_of_run hRun
        with ⟨next, hStep, hRest⟩
      rw [List.cons_append, afterGroup_cons _ hStep]
      exact ih hRest

/- A group in front of a text is walked over whole. -/
theorem afterGroup_group
    {interior : Text}
    (t : Text)
    (hBalanced : Text.Balanced interior) :
    afterGroup none 0 ('(' :: (interior ++ ')' :: t)) =
      ⟨true, 0, t⟩ :=
  afterGroup_append t hBalanced

end Stop

------------------------------------------------------------
-- Cursors
------------------------------------------------------------

namespace Cursor

/- The text between a place and a later one. -/
theorem since_of_append
    {s after : Cursor}
    {passed : Text}
    (hRest : s.rest = passed ++ after.rest) :
    since s after = passed := by
  rw [since, hRest, List.length_append, Nat.add_sub_cancel]
  exact List.take_left

/- A group that comes next is read. -/
theorem group_eq
    {s : Cursor}
    {interior t : Text}
    (hRest : s.rest = '(' :: (interior ++ ')' :: t))
    (hBalanced : Text.Balanced interior) :
    s.group = .ok (interior, { s with rest := t }) := by
  have hStop :
      Stop.afterGroup none 0 s.rest = ⟨true, 0, t⟩ := by
    rw [hRest]
    exact Stop.afterGroup_group t hBalanced
  have hSince :
      since s { s with rest := t } =
        '(' :: (interior ++ [')']) := by
    apply since_of_append
    simp [hRest]
  simp only [group, passGroup, moveTo, hStop, if_true,
    Nat.add_zero, Except.map, hSince]
  simp [Text.inner]

/- An operand is the text up to where the walk stops. -/
theorem operand_eq
    {s : Cursor}
    {word t : Text}
    (hRest : Text.trimStart s.rest = word ++ t)
    (hBalanced : Text.Balanced word)
    (hPasses :
      Nesting.outside.Passes
        (fun c => isBlank c || isSymbol c) word)
    (hHalts : Stop.Halts (fun c => isBlank c || isSymbol c) t) :
    s.operand = (.ok word, { s with rest := t }) := by
  have hStart :
      s.skipBlanks = { s with rest := word ++ t } := by
    rw [skipBlanks, skipWhile, ← hRest]
    rfl
  have hStop := Stop.atTop_of_passes hBalanced hPasses hHalts
  have hSince :
      since { s with rest := word ++ t }
          { s with rest := t } = word :=
    since_of_append rfl
  simp only [operand, hStart, hStop, moveTo, if_true,
    Nat.add_zero, Except.map, hSince]

/- In a balanced text an operand comes next, if an empty one. -/
theorem exists_operand
    {s : Cursor}
    (hBalanced : Text.Balanced s.rest) :
    ∃ word t,
      Text.trimStart s.rest = word ++ t ∧
        Text.Balanced word ∧ Text.Balanced t ∧
        s.operand = (.ok word, { s with rest := t }) := by
  have hStart : Text.Balanced (Text.trimStart s.rest) := by
    have hBlank :=
      Text.balanced_of_isBlank (Text.isBlank_takeWhile s.rest)
    rw [← Text.takeWhile_append_trimStart s.rest,
      Text.balanced_append_iff hBlank] at hBalanced
    exact hBalanced
  rcases
      Stop.exists_atTop
        (fun c => isBlank c || isSymbol c) hStart
    with ⟨word, t, hRest, hWord, hBehind, hPasses, hHalts, -⟩
  exact
    ⟨word, t, hRest, hWord, hBehind,
      operand_eq hRest hWord hPasses hHalts⟩

------------------------------------------------------------
-- Keywords
------------------------------------------------------------

/- A run ends where another character comes next. -/
theorem dropWhile_append_of_head
    {p : Char → Bool}
    {s t : Text}
    (hFirst : ∀ c ∈ s, p c = true)
    (hNext : t.head?.any p = false) :
    (s ++ t).dropWhile p = t := by
  rw [List.dropWhile_append_of_pos hFirst]
  cases t with
  | nil => rfl
  | cons c t =>
      have hOther : p c = false := by simpa using hNext
      rw [List.dropWhile_cons, hOther]
      rfl

theorem exists_blanks_skipBlanks
    (s : Cursor) :
    ∃ blanks,
      Text.IsBlank blanks ∧ s.rest = blanks ++ s.skipBlanks.rest :=
  ⟨_, Text.isBlank_takeWhile s.rest,
    (Text.takeWhile_append_trimStart s.rest).symm⟩

theorem skipBlanks_of_append
    {s : Cursor}
    {blanks t : Text}
    (hRest : s.rest = blanks ++ t)
    (hBlank : Text.IsBlank blanks)
    (hNext : t.head?.any isBlank = false) :
    s.skipBlanks = { s with rest := t } := by
  have hBlanks : ∀ c ∈ blanks, isBlank c = true :=
    Text.isBlank_iff.mp hBlank
  rw [skipBlanks, skipWhile, hRest,
    dropWhile_append_of_head hBlanks hNext]

/- A keyword is one of its spellings, behind blanks. -/
theorem afterKeyword?_eq_some_iff
    {keyword : Text}
    {s after : Cursor}
    (hWords : ∀ w ∈ keyword.words, Text.IsLetters w) :
    s.afterKeyword? keyword = some after ↔
      ∃ blanks spelled t,
        s.rest = blanks ++ (spelled ++ t) ∧
          Text.IsBlank blanks ∧
          Text.Spells keyword.words spelled ∧
          EndsAfter t ∧
          after = { s with rest := t } := by
  constructor
  · intro hAfter
    rcases Option.map_eq_some_iff.mp hAfter with ⟨length, hFound, rfl⟩
    rcases exists_spelled_of_delimitedLength? hWords hFound with
      ⟨spelled, t, hRest, rfl, hSpells, hEnds⟩
    rcases exists_blanks_skipBlanks s with ⟨blanks, hBlank, hWhole⟩
    refine ⟨blanks, spelled, t, ?_, hBlank, hSpells, hEnds, ?_⟩
    · rw [hWhole, hRest]
    · rw [hRest, List.drop_left]
      rfl
  · rintro ⟨blanks, spelled, t, hRest, hBlank, hSpells, hEnds, rfl⟩
    have hHead : (spelled ++ t).head?.any isBlank = false := by
      have hLetter := Text.head?_of_spells hWords hSpells
      cases spelled with
      | nil => cases hLetter
      | cons c spelled =>
          have hAlpha : c.isAlpha = true := by simpa using hLetter
          simpa using
            isBlank_eq_false_of_isNameChar (isNameChar_of_isAlpha hAlpha)
    rw [afterKeyword?, skipBlanks_of_append hRest hBlank hHead,
      delimitedLength?_of_spelled hWords hSpells hEnds]
    simp only [Option.map_some, List.drop_left]

------------------------------------------------------------
-- Cursors in Balanced Texts
------------------------------------------------------------

/- Walking over plain characters keeps a text balanced. -/
theorem balanced_dropWhile_iff
    {p : Char → Bool}
    {t : Text}
    (hPlain : ∀ c, p c = true → ¬ IsDelimiter c) :
    Text.Balanced (t.dropWhile p) ↔ Text.Balanced t := by
  have hFront : Text.Balanced (t.takeWhile p) :=
    Text.balanced_of_plain fun c hMem =>
      hPlain c (List.mem_takeWhile_imp hMem)
  have hWhole :=
    Text.balanced_append_iff (t := t.dropWhile p) hFront
  rw [List.takeWhile_append_dropWhile] at hWhole
  exact hWhole.symm

theorem balanced_skipBlanks
    {s : Cursor} :
    Text.Balanced s.skipBlanks.rest ↔ Text.Balanced s.rest :=
  balanced_dropWhile_iff fun _ => not_isDelimiter_of_isBlank

theorem balanced_symbol?
    {s : Cursor} :
    Text.Balanced s.symbol?.2.rest ↔ Text.Balanced s.rest :=
  balanced_dropWhile_iff fun _ => not_isDelimiter_of_isSymbol

theorem balanced_word
    {s : Cursor} :
    Text.Balanced s.word.2.rest ↔ Text.Balanced s.rest :=
  balanced_dropWhile_iff fun _ => not_isDelimiter_of_isNameChar

theorem balanced_atChar
    {c : Char}
    {s : Cursor} :
    Text.Balanced (s.atChar c).2.rest ↔ Text.Balanced s.rest :=
  balanced_skipBlanks

/- Behind a keyword a text is as balanced as in front of it. -/
theorem balanced_afterKeyword?
    {keyword : Text}
    {s after : Cursor}
    (hWords : ∀ w ∈ keyword.words, Text.IsLetters w)
    (hAfter : s.afterKeyword? keyword = some after) :
    Text.Balanced after.rest ↔ Text.Balanced s.rest := by
  rcases (afterKeyword?_eq_some_iff hWords).mp hAfter
    with ⟨blanks, k, rest, hRest, hBlank, hSpells, -, rfl⟩
  have hKeyword : Text.Balanced k :=
    Text.balanced_of_plain (Text.plain_of_spells hWords hSpells)
  rw [hRest,
    Text.balanced_append_iff (Text.balanced_of_isBlank hBlank),
    Text.balanced_append_iff hKeyword]

/- A group that comes next in a balanced text is read. -/
theorem exists_group
    {s : Cursor}
    (hNext : s.next? = some '(')
    (hBalanced : Text.Balanced s.rest) :
    ∃ interior t,
      s.group = .ok (interior, { s with rest := t }) ∧
        Text.Balanced interior ∧ Text.Balanced t := by
  rw [next?] at hNext
  cases hRest : s.rest with
  | nil => simp [hRest] at hNext
  | cons c t =>
      have hParen : c = '(' := by simpa [hRest] using hNext
      subst hParen
      rw [hRest] at hBalanced
      rcases Stop.exists_group hBalanced
        with ⟨interior, rest, rfl, hInterior, hBehind⟩
      exact
        ⟨interior, rest, group_eq hRest hInterior, hInterior,
          hBehind⟩

end Cursor

------------------------------------------------------------
-- Enclosed Texts
------------------------------------------------------------

namespace Text

/- A group and blanks are enclosed, a group and more are not. -/
theorem enclosed?_group
    {interior : Text}
    (t : Text)
    (hBalanced : Balanced interior) :
    enclosed? ('(' :: (interior ++ ')' :: t)) =
      .ok (if IsBlank t then some interior else none) := by
  have hGroup :=
    Cursor.group_eq
      (s := Cursor.ofText ('(' :: (interior ++ ')' :: t)))
      rfl hBalanced
  rw [enclosed?, if_pos (by simp), hGroup]
  rfl

/- What a balanced text encloses is balanced. -/
theorem exists_enclosed?
    {t : Text}
    (hBalanced : Balanced t) :
    ∃ found,
      enclosed? t = .ok found ∧
        ∀ interior, found = some interior →
          Balanced interior := by
  by_cases hHead : t.head? = some '('
  · cases t with
    | nil => exact absurd hHead (by simp)
    | cons c t =>
        have hParen : c = '(' := Option.some.inj hHead
        subst hParen
        rcases Stop.exists_group hBalanced
          with ⟨interior, rest, rfl, hInterior, -⟩
        refine ⟨_, enclosed?_group rest hInterior, ?_⟩
        intro found hFound
        split at hFound
        · rw [← Option.some.inj hFound]
          exact hInterior
        · exact absurd hFound (by simp)
  · refine ⟨none, ?_, ?_⟩
    · rw [enclosed?, if_neg hHead]
    · exact fun interior h => absurd h (by simp)

/- What a balanced text calls a function with is balanced. -/
theorem exists_call?
    {t : Text}
    (hBalanced : Balanced t) :
    ∃ found,
      call? t = .ok found ∧
        ∀ call, found = some call → Balanced call.2 := by
  have hStart :
      Balanced
        ((Cursor.ofText t).word.2.atChar '(').2.rest :=
    Cursor.balanced_atChar.mpr
      (Cursor.balanced_word.mpr hBalanced)
  have hCallText :
      call? t =
        if (Cursor.ofText t).word.1.isEmpty = false ∧
            ((Cursor.ofText t).word.2.atChar '(').1 = true then
          ((Cursor.ofText t).word.2.atChar '(').2.group.map
            fun found =>
              if IsBlank found.2.rest then
                some ((Cursor.ofText t).word.1, found.1)
              else none
        else .ok none := rfl
  by_cases hCall :
      (Cursor.ofText t).word.1.isEmpty = false ∧
        ((Cursor.ofText t).word.2.atChar '(').1 = true
  · rcases
        Cursor.exists_group
          (s := ((Cursor.ofText t).word.2.atChar '(').2)
          (eq_of_beq hCall.2) hStart
      with ⟨interior, rest, hGroup, hInterior, -⟩
    rw [hCallText, if_pos hCall, hGroup]
    refine ⟨_, rfl, ?_⟩
    intro call hFound
    by_cases hBlank : IsBlank rest
    · simp only [hBlank, if_true, Option.some.injEq] at hFound
      rw [← hFound]
      exact hInterior
    · simp [hBlank] at hFound
  · rw [hCallText, if_neg hCall]
    exact ⟨none, rfl, fun call h => absurd h (by simp)⟩

end Text

end SqlSelect
