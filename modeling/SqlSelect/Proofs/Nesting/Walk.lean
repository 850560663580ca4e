import SqlSelect.Nesting.Pieces
import SqlSelect.Proofs.Text.Characters
import SqlSelect.Proofs.Text.Trimming

/-
  Walks over texts. A step enters a quoted section or a group,
  leaves it, or stays where it is. A walk that gets through
  one text goes on with the next from where it has got to, so
  balanced texts can be put together and taken apart. The
  marks of a text are those of its parts, and what stands in
  a group or a quoted section has no mark at the top level.

  Main statements:
    * `Nesting.step_eq_some_iff`
    * `Nesting.marking_append`
    * `Text.marked_eq`
    * `Text.balanced_append_iff`
    * `Text.balanced_of_plain`
    * `Text.balanced_group`
    * `Text.balanced_quoted`
-/

namespace SqlSelect

namespace Nesting

------------------------------------------------------------
-- Steps
------------------------------------------------------------

/- Outside of sections a plain character changes nothing. -/
theorem step_of_plain
    {n : Nesting}
    {c : Char}
    (hOpen : n.closer = none)
    (hPlain : ¬ IsDelimiter c) :
    n.step c = some n := by
  rcases not_isDelimiter_iff.mp hPlain with ⟨hNone, hLeft, hRight⟩
  simp [step, hOpen, hNone, hLeft, hRight]

theorem run_of_plain
    {n : Nesting}
    {t : Text}
    (hOpen : n.closer = none)
    (hPlain : ∀ c ∈ t, ¬ IsDelimiter c) :
    n.run t = some n := by
  induction t with
  | nil => rfl
  | cons c t ih =>
      rw [run_cons, step_of_plain hOpen
        (hPlain c List.mem_cons_self)]
      exact ih fun d hMem =>
        hPlain d (List.mem_cons_of_mem c hMem)

/-
  What a step does: the character stands in a section or ends
  it, opens a section, opens or closes a group, or is plain.
-/
inductive StepsTo : Nesting → Char → Nesting → Prop where
  | inside {c q : Char} (depth : Nat) (hOther : c ≠ q) :
      StepsTo ⟨some q, depth⟩ c ⟨some q, depth⟩
  | closes (q : Char) (depth : Nat) :
      StepsTo ⟨some q, depth⟩ q ⟨none, depth⟩
  | opens {c q : Char} (depth : Nat) (hOpens : closerOf? c = some q) :
      StepsTo ⟨none, depth⟩ c ⟨some q, depth⟩
  | groupStart (depth : Nat) :
      StepsTo ⟨none, depth⟩ '(' ⟨none, depth + 1⟩
  | groupEnd (depth : Nat) :
      StepsTo ⟨none, depth + 1⟩ ')' ⟨none, depth⟩
  | plain {c : Char} (depth : Nat) (hPlain : ¬ IsDelimiter c) :
      StepsTo ⟨none, depth⟩ c ⟨none, depth⟩

theorem step_eq_some_iff
    {n next : Nesting}
    {c : Char} :
    n.step c = some next ↔ StepsTo n c next := by
  constructor
  · intro hStep
    rcases n with ⟨_ | q, depth⟩
    · by_cases hPlain : IsDelimiter c
      · rcases hPlain with hOpens | rfl | rfl
        · rcases Option.isSome_iff_exists.mp hOpens with ⟨q, hOpens⟩
          simp only [step, hOpens, Option.some.injEq] at hStep
          exact hStep ▸ .opens depth hOpens
        · cases hStep
          exact .groupStart depth
        · cases depth with
          | zero => cases hStep
          | succ depth =>
              cases hStep
              exact .groupEnd depth
      · rw [step_of_plain rfl hPlain] at hStep
        cases hStep
        exact .plain depth hPlain
    · by_cases hClose : c = q
      · subst hClose
        simp only [step, if_true, Option.some.injEq] at hStep
        exact hStep ▸ .closes c depth
      · simp only [step, if_neg hClose, Option.some.injEq] at hStep
        exact hStep ▸ .inside depth hClose
  · intro hStep
    cases hStep with
    | inside depth hOther => simp [step, hOther]
    | closes => simp [step]
    | opens depth hOpens => simp [step, hOpens]
    | groupStart => rfl
    | groupEnd => rfl
    | plain depth hPlain => exact step_of_plain rfl hPlain

/- The walk is stuck only where it would close no open group. -/
theorem step_eq_none_iff
    {n : Nesting}
    {c : Char} :
    n.step c = none ↔ n = outside ∧ c = ')' := by
  rcases n with ⟨closer, depth⟩
  constructor
  · intro hStuck
    cases closer with
    | some q => simp [step] at hStuck
    | none =>
        simp only [step] at hStuck
        split at hStuck
        · cases hStuck
        · split_ifs at hStuck with hLeft hRight
          cases depth with
          | zero => exact ⟨rfl, hRight⟩
          | succ depth => cases hStuck
  · rintro ⟨hOutside, rfl⟩
    rw [hOutside]
    rfl

/- A walk that gets through a text takes its first step. -/
theorem exists_step_of_run
    {n m : Nesting}
    {c : Char}
    {t : Text}
    (hRun : n.run (c :: t) = some m) :
    ∃ next, n.step c = some next ∧ next.run t = some m :=
  Option.bind_eq_some_iff.mp hRun

/-
  What is so of each character that ends a section stays so of
  the one that ends the section of a walk.
-/
theorem StepsTo.closer
    {n next : Nesting}
    {c : Char}
    {P : Char → Prop}
    (hStep : StepsTo n c next)
    (hCloser : ∀ d q, closerOf? d = some q → P q)
    (hHere : ∀ q, n.closer = some q → P q) :
    ∀ q, next.closer = some q → P q := by
  cases hStep with
  | inside depth hOther => exact hHere
  | opens depth hOpens =>
      rintro _ ⟨⟩
      exact hCloser c _ hOpens
  | closes | groupStart | groupEnd | plain =>
      rintro q ⟨⟩

/- The same place with more groups around it. -/
def deeper
    (levels : Nat)
    (n : Nesting) : Nesting :=
  ⟨n.closer, n.depth + levels⟩

/- A step works alike inside of more groups. -/
theorem step_deeper
    {n m : Nesting}
    {c : Char}
    (levels : Nat)
    (hStep : n.step c = some m) :
    (n.deeper levels).step c = some (m.deeper levels) := by
  rw [step_eq_some_iff] at hStep ⊢
  cases hStep with
  | inside depth hOther => exact .inside _ hOther
  | closes => exact .closes c _
  | opens depth hOpens => exact .opens _ hOpens
  | groupStart depth =>
      rw [deeper, deeper, Nat.add_right_comm]
      exact .groupStart _
  | groupEnd depth =>
      rw [deeper, deeper, Nat.add_right_comm]
      exact .groupEnd _
  | plain depth hPlain => exact .plain _ hPlain

theorem run_deeper
    {n m : Nesting}
    {t : Text}
    (levels : Nat)
    (hRun : n.run t = some m) :
    (n.deeper levels).run t = some (m.deeper levels) := by
  induction t generalizing n with
  | nil =>
      simp only [run_nil, Option.some.injEq] at hRun
      simp [hRun]
  | cons c t ih =>
      rw [run_cons] at hRun ⊢
      rcases Option.bind_eq_some_iff.mp hRun
        with ⟨next, hStep, hRest⟩
      rw [step_deeper levels hStep]
      exact ih hRest

------------------------------------------------------------
-- Marks
------------------------------------------------------------

/-
  The marks of the characters of a text as far as the walk
  over it gets, whatever it ends with.
-/
def marking
    (n : Nesting) : Text → List Mark
  | [] => []
  | c :: rest =>
      ⟨c, decide (n.IsTop c)⟩ ::
        match n.step c with
        | none => []
        | some next => next.marking rest

theorem marking_cons
    {n next : Nesting}
    {c : Char}
    (t : Text)
    (hStep : n.step c = some next) :
    n.marking (c :: t) =
      ⟨c, decide (n.IsTop c)⟩ :: next.marking t := by
  simp [marking, hStep]

/- The marks of two texts are those of one and the other. -/
theorem marking_append
    {n m : Nesting}
    {s : Text}
    (t : Text)
    (hRun : n.run s = some m) :
    n.marking (s ++ t) = n.marking s ++ m.marking t := by
  induction s generalizing n with
  | nil =>
      simp only [run_nil, Option.some.injEq] at hRun
      simp [marking, hRun]
  | cons c s ih =>
      rw [run_cons] at hRun
      rcases Option.bind_eq_some_iff.mp hRun
        with ⟨next, hStep, hRest⟩
      rw [List.cons_append, marking_cons _ hStep,
        marking_cons _ hStep, ih hRest, List.cons_append]

theorem text_marking
    {n m : Nesting}
    {t : Text}
    (hRun : n.run t = some m) :
    Mark.text (n.marking t) = t := by
  induction t generalizing n with
  | nil => rfl
  | cons c t ih =>
      rw [run_cons] at hRun
      rcases Option.bind_eq_some_iff.mp hRun
        with ⟨next, hStep, hRest⟩
      rw [marking_cons _ hStep]
      simpa [Mark.text] using ih hRest

/- Where a text has marks, they are these. -/
theorem marks?_eq
    (n : Nesting)
    (t : Text) :
    n.marks? t =
      if n.run t = some outside then some (n.marking t)
      else none := by
  induction t generalizing n with
  | nil => simp [marks?, marking]
  | cons c t ih =>
      cases hStep : n.step c with
      | none => simp [marks?, run_cons, hStep]
      | some next =>
          by_cases hRest : next.run t = some outside <;>
            simp [marks?, run_cons, hStep, ih, hRest,
              marking]

/- No character of the marks is at the top level. -/
def Hidden
    (marked : List Mark) : Prop :=
  ∀ m ∈ marked, m.top = false

/- Inside of a group nothing is at the top level. -/
theorem hidden_marking_deeper
    {n m : Nesting}
    {t : Text}
    (hRun : n.run t = some m) :
    Hidden ((n.deeper 1).marking t) := by
  induction t generalizing n with
  | nil => exact fun _ h => absurd h List.not_mem_nil
  | cons c t ih =>
      rw [run_cons] at hRun
      rcases Option.bind_eq_some_iff.mp hRun
        with ⟨next, hStep, hRest⟩
      rw [marking_cons _ (step_deeper 1 hStep)]
      intro mark hMem
      rcases List.mem_cons.mp hMem with h | h
      · subst h
        simp [IsTop, deeper, outside]
      · exact ih hRest mark h

/- Marks at the top level for all characters of a text. -/
def allTop
    (t : Text) : List Mark :=
  t.map fun c => ⟨c, true⟩

@[simp]
theorem text_allTop
    (t : Text) :
    Mark.text (allTop t) = t := by
  simp [Mark.text, allTop, Function.comp_def]

/- Every character of a plain text is at the top level. -/
theorem marking_of_plain
    {t : Text}
    (hPlain : ∀ c ∈ t, ¬ IsDelimiter c) :
    outside.marking t = allTop t := by
  induction t with
  | nil => rfl
  | cons c t ih =>
      have hHead := hPlain c List.mem_cons_self
      rw [marking_cons _ (step_of_plain rfl hHead),
        ih fun d hMem =>
          hPlain d (List.mem_cons_of_mem c hMem)]
      simp [IsTop, hHead, allTop]

end Nesting

------------------------------------------------------------
-- Balanced Texts
------------------------------------------------------------

namespace Text

/- The marks of the characters of a whole text. -/
def marking
    (t : Text) : List Mark :=
  Nesting.outside.marking t

/- A text has marks exactly when it is balanced. -/
theorem marked_eq
    (t : Text) :
    t.marked =
      if Balanced t then .ok (marking t)
      else .error (.unbalanced t) := by
  rw [marked, marks?, Nesting.marks?_eq]
  by_cases h : Balanced t
  · rw [if_pos h]
    rw [Balanced] at h
    rw [if_pos h, marking]
  · rw [if_neg h]
    rw [Balanced] at h
    rw [if_neg h]

@[simp]
theorem balanced_nil :
    Balanced [] := rfl

/- Balanced text in front of a text makes no difference. -/
theorem balanced_append_iff
    {s t : Text}
    (hFirst : Balanced s) :
    Balanced (s ++ t) ↔ Balanced t := by
  unfold Balanced at hFirst ⊢
  rw [Nesting.run_append, hFirst]
  rfl

theorem balanced_append
    {s t : Text}
    (hFirst : Balanced s)
    (hSecond : Balanced t) :
    Balanced (s ++ t) :=
  (balanced_append_iff hFirst).mpr hSecond

theorem balanced_blank_cons
    {t : Text}
    (hBalanced : Balanced t) :
    Balanced (' ' :: t) :=
  balanced_append (by decide : Balanced [' ']) hBalanced

theorem marking_append
    {s : Text}
    (t : Text)
    (hFirst : Balanced s) :
    marking (s ++ t) = marking s ++ marking t :=
  Nesting.marking_append t hFirst

theorem text_marking
    {t : Text}
    (hBalanced : Balanced t) :
    Mark.text (marking t) = t :=
  Nesting.text_marking hBalanced

/- Text without delimiters is balanced. -/
theorem balanced_of_plain
    {t : Text}
    (hPlain : ∀ c ∈ t, ¬ IsDelimiter c) :
    Balanced t :=
  Nesting.run_of_plain rfl hPlain

theorem balanced_of_isBlank
    {t : Text}
    (hBlank : IsBlank t) :
    Balanced t :=
  balanced_of_plain fun c hMem =>
    not_isDelimiter_of_isBlank (isBlank_iff.mp hBlank c hMem)

theorem marking_of_plain
    {t : Text}
    (hPlain : ∀ c ∈ t, ¬ IsDelimiter c) :
    marking t = Nesting.allTop t :=
  Nesting.marking_of_plain hPlain

------------------------------------------------------------
-- Groups
------------------------------------------------------------

/- The walk over a group with balanced text in it. -/
theorem run_group
    {t : Text}
    (hBalanced : Balanced t) :
    Nesting.outside.run ('(' :: (t ++ [')'])) =
      some Nesting.outside := by
  have hInside := Nesting.run_deeper 1 hBalanced
  have hOpen :
      Nesting.outside.step '(' =
        some (Nesting.outside.deeper 1) := rfl
  rw [Nesting.run_cons, hOpen, Option.bind_some,
    Nesting.run_append, hInside]
  rfl

theorem balanced_group
    {t : Text}
    (hBalanced : Balanced t) :
    Balanced ('(' :: (t ++ [')'])) :=
  run_group hBalanced

theorem hidden_group
    {t : Text}
    (hBalanced : Balanced t) :
    Nesting.Hidden (marking ('(' :: (t ++ [')']))) := by
  have hInside := Nesting.run_deeper 1 hBalanced
  have hOpen :
      Nesting.outside.step '(' =
        some (Nesting.outside.deeper 1) := rfl
  have hSplit :
      marking ('(' :: (t ++ [')'])) =
        ⟨'(', false⟩ ::
          ((Nesting.outside.deeper 1).marking t ++
            [⟨')', false⟩]) := by
    rw [marking, Nesting.marking_cons _ hOpen,
      Nesting.marking_append _ hInside]
    rfl
  rw [hSplit]
  intro m hMem
  rcases List.mem_cons.mp hMem with h | h
  · rw [h]
  · rcases List.mem_append.mp h with h | h
    · exact Nesting.hidden_marking_deeper hBalanced m h
    · rw [List.mem_singleton.mp h]

------------------------------------------------------------
-- Quoted Sections
------------------------------------------------------------

/-
  A walk in a quoted section stays in it over text in which
  every quote is doubled: the first of two quotes leaves the
  section and the second enters it again.
-/
theorem run_double
    {q : Char}
    (hQuote : closerOf? q = some q)
    (depth : Nat)
    (t : Text) :
    (⟨some q, depth⟩ : Nesting).run (double q t) =
      some ⟨some q, depth⟩ := by
  induction t with
  | nil => rfl
  | cons c t ih =>
      by_cases hSame : c = q
      · simp only [double, hSame, if_true]
        simp only [Nesting.run_cons, Nesting.step, if_true,
          hQuote, Option.bind_some]
        exact ih
      · simp only [double, hSame, if_false]
        simp only [Nesting.run_cons, Nesting.step, hSame,
          if_false, Option.bind_some]
        exact ih

theorem hidden_marking_double
    {q : Char}
    (hQuote : closerOf? q = some q)
    (depth : Nat)
    (t : Text) :
    Nesting.Hidden
      ((⟨some q, depth⟩ : Nesting).marking (double q t)) := by
  have hDelimiter : IsDelimiter q :=
    Or.inl (by simp [hQuote])
  induction t with
  | nil => exact fun _ h => absurd h List.not_mem_nil
  | cons c t ih =>
      by_cases hSame : c = q
      · simp only [double, hSame, if_true]
        simp only [Nesting.marking, Nesting.step, if_true,
          hQuote]
        intro m hMem
        simp only [List.mem_cons] at hMem
        rcases hMem with h | h | h
        · simp [h, Nesting.IsTop, Nesting.outside]
        · simp [h, Nesting.IsTop, hDelimiter]
        · exact ih m h
      · simp only [double, hSame, if_false]
        simp only [Nesting.marking, Nesting.step, hSame,
          if_false]
        intro m hMem
        simp only [List.mem_cons] at hMem
        rcases hMem with h | h
        · simp [h, Nesting.IsTop, Nesting.outside]
        · exact ih m h

/- Text without the closing character stays in the section. -/
theorem run_inside
    {q : Char}
    {t : Text}
    (depth : Nat)
    (hNone : q ∉ t) :
    (⟨some q, depth⟩ : Nesting).run t = some ⟨some q, depth⟩ := by
  induction t with
  | nil => rfl
  | cons c t ih =>
      rw [List.mem_cons, not_or] at hNone
      simp only [Nesting.run_cons, Nesting.step,
        if_neg (Ne.symm hNone.1), Option.bind_some]
      exact ih hNone.2

theorem hidden_marking_inside
    {q : Char}
    {t : Text}
    (depth : Nat)
    (hNone : q ∉ t) :
    Nesting.Hidden
      ((⟨some q, depth⟩ : Nesting).marking t) := by
  induction t with
  | nil => exact fun _ h => absurd h List.not_mem_nil
  | cons c t ih =>
      rw [List.mem_cons, not_or] at hNone
      simp only [Nesting.marking, Nesting.step,
        if_neg (Ne.symm hNone.1)]
      intro m hMem
      simp only [List.mem_cons] at hMem
      rcases hMem with h | h
      · simp [h, Nesting.IsTop, Nesting.outside]
      · exact ih hNone.2 m h

theorem step_opener
    {c q : Char}
    (hOpener : closerOf? c = some q) :
    Nesting.outside.step c = some ⟨some q, 0⟩ := by
  simp [Nesting.step, Nesting.outside, hOpener]

/- A section from its opening to its closing character. -/
theorem balanced_section
    {c q : Char}
    {t : Text}
    (hOpener : closerOf? c = some q)
    (hInside :
      (⟨some q, 0⟩ : Nesting).run t = some ⟨some q, 0⟩) :
    Balanced (c :: (t ++ [q])) := by
  rw [Balanced, Nesting.run_cons, step_opener hOpener,
    Option.bind_some, Nesting.run_append, hInside,
    Option.bind_some]
  simp [Nesting.run_cons, Nesting.step, Nesting.outside]

theorem hidden_section
    {c q : Char}
    {t : Text}
    (hOpener : closerOf? c = some q)
    (hInside :
      (⟨some q, 0⟩ : Nesting).run t = some ⟨some q, 0⟩)
    (hHidden :
      Nesting.Hidden ((⟨some q, 0⟩ : Nesting).marking t)) :
    Nesting.Hidden (marking (c :: (t ++ [q]))) := by
  have hDelimiter : IsDelimiter c :=
    Or.inl (by simp [hOpener])
  have hSplit :
      marking (c :: (t ++ [q])) =
        ⟨c, decide (Nesting.outside.IsTop c)⟩ ::
          ((⟨some q, 0⟩ : Nesting).marking t ++
            (⟨some q, 0⟩ : Nesting).marking [q]) := by
    rw [marking, Nesting.marking_cons _ (step_opener hOpener),
      Nesting.marking_append _ hInside]
  rw [hSplit]
  intro m hMem
  rcases List.mem_cons.mp hMem with h | h
  · simp [h, Nesting.IsTop, hDelimiter]
  · rcases List.mem_append.mp h with h | h
    · exact hHidden m h
    · simp only [Nesting.marking, Nesting.step, if_true,
        List.mem_singleton] at h
      simp [h, Nesting.IsTop, Nesting.outside]

/- A text between quotes, with the quotes in it doubled. -/
def between
    (q : Char)
    (t : Text) : Text :=
  q :: (double q t ++ [q])

theorem balanced_quoted
    {q : Char}
    (hQuote : closerOf? q = some q)
    (t : Text) :
    Balanced (between q t) :=
  balanced_section hQuote (run_double hQuote 0 t)

theorem hidden_quoted
    {q : Char}
    (hQuote : closerOf? q = some q)
    (t : Text) :
    Nesting.Hidden (marking (between q t)) :=
  hidden_section hQuote (run_double hQuote 0 t)
    (hidden_marking_double hQuote 0 t)

end Text

end SqlSelect
