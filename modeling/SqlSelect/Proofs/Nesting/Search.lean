import SqlSelect.Proofs.Nesting.Junction

/-
  The search for a keyword. Where the keyword occurs at the
  start of a text, the text is cut at it and then as the rest
  is, and elsewhere it is cut behind the first character. So
  what is said of a cut is shown from one occurrence to the
  next.

  Main statements:
    * `Nesting.Occurs`
    * `Nesting.exists_occurs_of_occurrenceLength?`
    * `Nesting.ofMarks_of_occurs`
    * `Nesting.ofMarks_of_not_occurs`
    * `Nesting.occurs_induction`
    * `Text.cutOf_spelled`
-/

namespace SqlSelect

open Text

/- A spelling is not empty. -/
theorem Text.ne_nil_of_spells
    {words : List Text}
    {k : Text}
    (hWords : ∀ w ∈ words, IsLetters w)
    (hSpells : Spells words k) :
    k ≠ [] := by
  rintro rfl
  exact absurd (head?_of_spells hWords hSpells) (by simp)

------------------------------------------------------------
-- Occurrences on a Walk
------------------------------------------------------------

namespace Nesting

/-
  The keyword occurs in the text behind `front`, where a walk
  goes over the text from `n` on and behind a character.
-/
structure Occurs
    (n : Nesting)
    (previous : Option Char)
    (words : List Text)
    (t front keyword after : Text) : Prop where
  split : t = front ++ (keyword ++ after)
  run : n.run front = some outside
  endsBefore : EndsBefore (Cut.lastOr previous front)
  spells : Spells words keyword
  endsAfter : EndsAfter after

variable {n next : Nesting}
variable {previous : Option Char}
variable {words : List Text}
variable {c : Char}
variable {t front keyword after : Text}
variable {length : Nat}

/- Behind the first character it is the same occurrence. -/
theorem occurs_cons_iff
    (hStep : n.step c = some next) :
    n.Occurs previous words (c :: t) (c :: front) keyword after ↔
      next.Occurs (some c) words t front keyword after := by
  have hLast :
      Cut.lastOr previous (c :: front) =
        Cut.lastOr (some c) front :=
    (Cut.lastOr_append previous [c] front).symm
  constructor
  · rintro ⟨hSplit, hRun, hBefore, hSpells, hAfter⟩
    rw [run_cons, hStep] at hRun
    rw [hLast] at hBefore
    exact
      ⟨(List.cons.inj hSplit).2, hRun, hBefore, hSpells, hAfter⟩
  · rintro ⟨hSplit, hRun, hBefore, hSpells, hAfter⟩
    refine ⟨congrArg _ hSplit, ?_, ?_, hSpells, hAfter⟩
    · rw [run_cons, hStep]
      exact hRun
    · rw [hLast]
      exact hBefore

theorem not_occurs_nil
    (hWords : ∀ w ∈ words, IsLetters w) :
    ¬ n.Occurs previous words [] front keyword after := by
  intro hOccurs
  have hNil := List.nil_eq_append_iff.mp hOccurs.split
  exact
    ne_nil_of_spells hWords hOccurs.spells
      (List.append_eq_nil_iff.mp hNil.2).1

/- Where the search finds a keyword, it occurs. -/
theorem exists_occurs_of_occurrenceLength?
    (hWords : ∀ w ∈ words, IsLetters w)
    (hRun : n.run (c :: t) = some outside)
    (hFound :
      occurrenceLength? words previous (n.marking (c :: t)) =
        some length) :
    ∃ keyword after,
      n.Occurs previous words (c :: t) [] keyword after ∧
        keyword.length = length := by
  have hText := text_marking hRun
  rw [marking] at hFound hText
  rw [occurrenceLength?, Option.ite_none_right_eq_some, hText] at hFound
  rcases hFound with ⟨⟨hTop, hBefore⟩, hLength⟩
  rcases exists_spelled_of_delimitedLength? hWords hLength
    with ⟨keyword, after, hSplit, hKeyword, hSpells, hAfter⟩
  have hOutside : n = outside := (of_decide_eq_true hTop).1
  exact
    ⟨keyword, after,
      ⟨hSplit, congrArg some hOutside, hBefore, hSpells, hAfter⟩,
      hKeyword⟩

/- Where a keyword occurs, the search finds it. -/
theorem occurrenceLength?_of_occurs
    (hWords : ∀ w ∈ words, IsLetters w)
    (hRun : n.run (c :: t) = some outside)
    (hOccurs : n.Occurs previous words (c :: t) [] keyword after) :
    occurrenceLength? words previous (n.marking (c :: t)) =
      some keyword.length := by
  have hText := text_marking hRun
  have hOutside : n = outside := Option.some.inj hOccurs.run
  have hHead := head?_of_spells hWords hOccurs.spells
  have hTop : n.IsTop c := by
    refine ⟨hOutside, ?_⟩
    have hSplit : c :: t = keyword ++ after := hOccurs.split
    cases keyword with
    | nil => exact absurd hHead (by simp)
    | cons d keyword =>
        have hSame : c = d := (List.cons.inj hSplit).1
        rw [hSame]
        exact not_isDelimiter_of_isNameChar (isNameChar_of_isAlpha hHead)
  have hLength :
      delimitedLength? words (c :: t) = some keyword.length := by
    rw [hOccurs.split]
    exact delimitedLength?_of_spelled hWords hOccurs.spells hOccurs.endsAfter
  rw [marking] at hText ⊢
  rw [occurrenceLength?, hText, hLength, if_pos]
  exact ⟨decide_eq_true hTop, hOccurs.endsBefore⟩

------------------------------------------------------------
-- Cuts at Occurrences
------------------------------------------------------------

/- Where a keyword occurs, the marks are cut at it. -/
theorem ofMarks_of_occurs
    (hWords : ∀ w ∈ words, IsLetters w)
    (hRun : n.run t = some outside)
    (hOccurs : n.Occurs previous words t [] keyword after) :
    Cut.ofMarks words previous (n.marking t) =
      Cut.occurrence keyword
        (Cut.ofMarks words keyword.getLast? (Text.marking after)) := by
  have hOutside : n = outside := Option.some.inj hOccurs.run
  have hPlain := plain_of_spells hWords hOccurs.spells
  have hSplit : t = keyword ++ after := hOccurs.split
  cases keyword with
  | nil => exact absurd rfl (ne_nil_of_spells hWords hOccurs.spells)
  | cons d keyword =>
      have hMarks :
          n.marking t =
            ⟨d, true⟩ :: (allTop keyword ++ Text.marking after) := by
        rw [hSplit, hOutside]
        change Text.marking (d :: keyword ++ after) = _
        rw [Text.marking_append _ (balanced_of_plain hPlain),
          Text.marking_of_plain hPlain]
        rfl
      subst hSplit
      have hFound := occurrenceLength?_of_occurs hWords hRun hOccurs
      have hLength : (allTop keyword).length = keyword.length := by
        simp [allTop]
      have hTake :
          (allTop keyword ++ Text.marking after).take keyword.length =
            allTop keyword := by
        rw [← hLength, List.take_left]
      have hDrop :
          (allTop keyword ++ Text.marking after).drop keyword.length =
            Text.marking after := by
        rw [← hLength, List.drop_left]
      change occurrenceLength? words previous
        (n.marking (d :: keyword ++ after)) = _ at hFound
      rw [hMarks] at hFound ⊢
      rw [Cut.ofMarks, hFound]
      simp only [List.length_cons, Nat.add_sub_cancel, hTake, hDrop,
        text_allTop]

/- Where none occurs, the cut is behind the character. -/
theorem ofMarks_of_not_occurs
    (hWords : ∀ w ∈ words, IsLetters w)
    (hRun : n.run (c :: t) = some outside)
    (hStep : n.step c = some next)
    (hNone :
      ∀ keyword after,
        ¬ n.Occurs previous words (c :: t) [] keyword after) :
    Cut.ofMarks words previous (n.marking (c :: t)) =
      Cut.prepend [c] (Cut.ofMarks words (some c) (next.marking t)) := by
  have hFound :
      occurrenceLength? words previous (n.marking (c :: t)) = none := by
    cases hFound :
        occurrenceLength? words previous (n.marking (c :: t)) with
    | none => rfl
    | some length =>
        rcases exists_occurs_of_occurrenceLength? hWords hRun hFound
          with ⟨keyword, after, hOccurs, -⟩
        exact absurd hOccurs (hNone keyword after)
  rw [marking_cons t hStep] at hFound ⊢
  rw [Cut.ofMarks, hFound]

/- Behind an occurrence in front the rest is balanced. -/
theorem Occurs.balanced_behind
    (hWords : ∀ w ∈ words, IsLetters w)
    (hRun : n.run t = some outside)
    (hOccurs : n.Occurs previous words t [] keyword after) :
    Balanced after := by
  rw [Option.some.inj hOccurs.run, hOccurs.split] at hRun
  exact
    (balanced_append_iff
      (balanced_of_plain (plain_of_spells hWords hOccurs.spells))).mp hRun

/-
  The text ends, or the keyword occurs at the start of it, and
  what is so behind the keyword is so of the whole, or it does
  not occur there, and what is so behind the first character
  is so of the whole. By induction on the length of the text.
-/
theorem occurs_induction
    {motive :
      (n : Nesting) → Option Char → (t : Text) →
        n.run t = some outside → Prop}
    (hWords : ∀ w ∈ words, IsLetters w)
    (nil : ∀ previous, motive outside previous [] rfl)
    (occurs :
      ∀ n previous t keyword after (hRun : n.run t = some outside),
        n.Occurs previous words t [] keyword after →
          ∀ hBehind : Balanced after,
            motive outside keyword.getLast? after hBehind →
              motive n previous t hRun)
    (cons :
      ∀ n next previous c t (hRun : n.run (c :: t) = some outside),
        n.step c = some next →
          ∀ hRest : next.run t = some outside,
            (∀ keyword after,
              ¬ n.Occurs previous words (c :: t) [] keyword after) →
              motive next (some c) t hRest →
                motive n previous (c :: t) hRun)
    (n : Nesting)
    (previous : Option Char)
    (t : Text)
    (hRun : n.run t = some outside) :
    motive n previous t hRun := by
  induction hLength : t.length using Nat.strong_induction_on
    generalizing n previous t with
  | _ length ih =>
      by_cases hOccurs :
          ∃ keyword after, n.Occurs previous words t [] keyword after
      · rcases hOccurs with ⟨keyword, after, hOccurs⟩
        have hBehind := hOccurs.balanced_behind hWords hRun
        have hPos :=
          List.length_pos_iff.mpr (ne_nil_of_spells hWords hOccurs.spells)
        have hSplit := congrArg List.length hOccurs.split
        rw [List.nil_append, List.length_append] at hSplit
        exact
          occurs n previous t keyword after hRun hOccurs hBehind
            (ih after.length (by omega) _ _ after hBehind rfl)
      · push Not at hOccurs
        cases t with
        | nil =>
            rcases Option.some.inj hRun with rfl
            exact nil previous
        | cons c t =>
            rcases exists_step_of_run hRun with ⟨next, hStep, hRest⟩
            rw [List.length_cons] at hLength
            exact
              cons n next previous c t hRun hStep hRest hOccurs
                (ih t.length (by omega) _ _ t hRest rfl)

end Nesting

namespace Text

/- A keyword at the start of a text is its first occurrence. -/
theorem cutOf_spelled
    {words : List Text}
    {k t : Text}
    (hWords : ∀ w ∈ words, IsLetters w)
    (hSpells : Spells words k)
    (hBalanced : Balanced t)
    (hBlank : StartsBlank t) :
    cutOf words (k ++ t) =
      Cut.occurrence k (cutOf words t) := by
  have hWhole : Balanced (k ++ t) :=
    balanced_append
      (balanced_of_plain (plain_of_spells hWords hSpells)) hBalanced
  have hOccurs :
      Nesting.outside.Occurs none words (k ++ t) [] k t :=
    ⟨rfl, rfl, rfl, hSpells, endsAfter_of_startsBlank hBlank⟩
  rw [cutOf, marking, Nesting.ofMarks_of_occurs hWords hWhole hOccurs,
    ofMarks_behind_seam hWords hBalanced fun _ =>
      seam_of_startsBlank k hBlank]

end Text

end SqlSelect
