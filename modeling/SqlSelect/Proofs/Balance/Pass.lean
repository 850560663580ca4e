import SqlSelect.Proofs.Nesting.Walk

/-
  A single pass over a text in which a doubled quote inside
  of a quoted section is an escape. It gets to the end with
  everything closed exactly when the walk does that leaves
  the section at the first of the two quotes and enters it
  again at the second.

  Main statements:
    * `Nesting.closesAll`
    * `Nesting.closesAll_iff_run`
    * `Text.ClosesAll`
    * `Text.closesAll_iff_balanced`
-/

namespace SqlSelect

namespace Nesting

/-
  The pass over the rest of a text, inside of the section
  that `closer` ends, if any, and with `depth` groups open:
  whether all of them are closed and nothing else is. Of the
  sections only those in brackets have no escape.
-/
def closesAll : Option Char → Nat → Text → Bool
  | none, depth, [] => depth == 0
  | some _, _, [] => false
  | some q, depth, [c] => c == q && depth == 0
  | some q, depth, c :: d :: rest =>
      if c = q then
        if q ≠ ']' ∧ d = q then closesAll (some q) depth rest
        else closesAll none depth (d :: rest)
      else closesAll (some q) depth (d :: rest)
  | none, depth, c :: rest =>
      match closerOf? c with
      | some q => closesAll (some q) depth rest
      | none =>
          if c = '(' then closesAll none (depth + 1) rest
          else if c = ')' then
            match depth with
            | 0 => false
            | fewer + 1 => closesAll none fewer rest
          else closesAll none depth rest

/-
  The sections that a walk can be in: those between two quotes
  of one kind, and those that end with a bracket.
-/
def InSection
    (closer : Option Char) : Prop :=
  ∀ q, closer = some q → q = ']' ∨ closerOf? q = some q

theorem inSection_of_closerOf?
    {c q : Char}
    (hOpens : closerOf? c = some q) :
    InSection (some q) := by
  intro p hCloser
  rcases Option.some.inj hCloser with rfl
  unfold closerOf? at hOpens
  split at hOpens
  · rename_i hQuote
    rcases Option.some.inj hOpens with rfl
    exact Or.inr (by simp [closerOf?, hQuote])
  · split at hOpens
    · exact Or.inl (Option.some.inj hOpens).symm
    · exact absurd hOpens (by simp)

theorem inSection_none :
    InSection none :=
  fun _ h => absurd h (by simp)

/- A step of the pass outside of sections. -/
theorem closesAll_none_cons
    (depth : Nat)
    (c : Char)
    (t : Text) :
    closesAll none depth (c :: t) =
      match closerOf? c with
      | some q => closesAll (some q) depth t
      | none =>
          if c = '(' then closesAll none (depth + 1) t
          else if c = ')' then
            match depth with
            | 0 => false
            | fewer + 1 => closesAll none fewer t
          else closesAll none depth t := by
  cases t <;> cases depth <;> rfl

/- A walk from a section gets to sections of these kinds only. -/
theorem InSection.step
    {n next : Nesting}
    {c : Char}
    (hSection : InSection n.closer)
    (hStep : n.step c = some next) :
    InSection next.closer :=
  (step_eq_some_iff.mp hStep).closer
    (fun _ _ hOpens => inSection_of_closerOf? hOpens _ rfl) hSection

/- A quote that ends the section comes next, and one more of it. -/
def AtEscape
    (n : Nesting)
    (t : Text) : Prop :=
  ∃ q rest, n.closer = some q ∧ q ≠ ']' ∧ t = q :: q :: rest

/- The pass goes over an escape, as two steps of the walk do. -/
theorem closesAll_escape
    {q : Char}
    (depth : Nat)
    (t : Text)
    (hQuote : q ≠ ']') :
    closesAll (some q) depth (q :: q :: t) =
      closesAll (some q) depth t := by
  rw [closesAll, if_pos rfl, if_pos ⟨hQuote, rfl⟩]

theorem run_escape
    {q : Char}
    (depth : Nat)
    (t : Text)
    (hQuote : closerOf? q = some q) :
    Nesting.run ⟨some q, depth⟩ (q :: q :: t) =
      Nesting.run ⟨some q, depth⟩ t := by
  rw [run_cons, step_eq_some_iff.mpr (.closes q depth),
    Option.bind_some, run_cons,
    step_eq_some_iff.mpr (.opens depth hQuote), Option.bind_some]

/- Elsewhere a step of the pass is one of the walk. -/
theorem closesAll_cons
    {n next : Nesting}
    {c : Char}
    {t : Text}
    (hStep : n.step c = some next)
    (hNot : ¬ AtEscape n (c :: t)) :
    closesAll n.closer n.depth (c :: t) =
      closesAll next.closer next.depth t := by
  cases step_eq_some_iff.mp hStep with
  | inside depth hOther =>
      cases t with
      | nil => simp [closesAll, hOther]
      | cons d rest => rw [closesAll, if_neg hOther]
  | closes =>
      cases t with
      | nil => simp [closesAll]
      | cons d rest =>
          rw [closesAll, if_pos rfl, if_neg]
          rintro ⟨hQuote, rfl⟩
          exact hNot ⟨d, rest, rfl, hQuote, rfl⟩
  | opens depth hOpens => rw [closesAll_none_cons, hOpens]
  | groupStart depth => exact closesAll_none_cons depth '(' t
  | groupEnd depth => exact closesAll_none_cons (depth + 1) ')' t
  | plain depth hPlain =>
      rcases not_isDelimiter_iff.mp hPlain with ⟨hNone, hLeft, hRight⟩
      rw [closesAll_none_cons, hNone]
      simp only [if_neg hLeft, if_neg hRight]

/-
  Pass and walk agree, by induction on the number of
  characters left: an escape is two steps of the walk.
-/
theorem closesAll_iff_run
    {n : Nesting}
    (t : Text)
    (hSection : InSection n.closer) :
    closesAll n.closer n.depth t = true ↔ n.run t = some outside := by
  induction hLength : t.length using Nat.strong_induction_on
    generalizing n t with
  | _ length ih =>
      cases t with
      | nil => rcases n with ⟨_ | q, depth⟩ <;> simp [closesAll, outside]
      | cons c t =>
          rw [List.length_cons] at hLength
          by_cases hEscape : AtEscape n (c :: t)
          · rcases n with ⟨closer, depth⟩
            rcases hEscape with ⟨q, rest, rfl, hQuote, hText⟩
            have hOpens := (hSection q rfl).resolve_left hQuote
            have hShorter := congrArg List.length hText
            simp only [List.length_cons] at hShorter
            rw [hText, closesAll_escape depth rest hQuote,
              run_escape depth rest hOpens]
            exact ih rest.length (by omega) rest hSection rfl
          · cases hStep : n.step c with
            | none =>
                rcases step_eq_none_iff.mp hStep with ⟨rfl, rfl⟩
                rw [run_cons, hStep]
                simp [outside, closesAll_none_cons, closerOf?]
            | some next =>
                rw [closesAll_cons hStep hEscape, run_cons, hStep]
                exact
                  ih t.length (by omega) t (hSection.step hStep) rfl

end Nesting

namespace Text

/-
  One pass from left to right closes every quoted section,
  every section in brackets and every group of the text, and
  closes no group that is not open.
-/
def ClosesAll
    (t : Text) : Prop :=
  Nesting.closesAll none 0 t = true

instance
    (t : Text) :
    Decidable (ClosesAll t) := by
  unfold ClosesAll
  infer_instance

theorem closesAll_iff_balanced
    {t : Text} :
    ClosesAll t ↔ Balanced t :=
  Nesting.closesAll_iff_run (n := Nesting.outside) t
    Nesting.inSection_none

example : ClosesAll "f('it''s (', [)])".toList := by
  decide

example : ¬ ClosesAll "a) + (b".toList := by
  decide

end Text

end SqlSelect
