import SqlSelect.Nesting.Section
import SqlSelect.Proofs.Nesting.Search

/-
  Occurrences of a keyword. A text is cut at its first
  occurrence, which has the shortest text in front of it, and
  what is read up to some keywords ends at the first of their
  occurrences.

  Main statements:
    * `Text.Occurs`
    * `Text.isFree_iff`
    * `Text.cutsFirst_cutOf`
    * `Text.exists_first_of_not_isFree`
    * `Text.First.cutOf`
    * `Text.occurs_append_iff`
-/

namespace SqlSelect

open Text

------------------------------------------------------------
-- Cuts at the First Occurrence
------------------------------------------------------------

namespace Nesting

variable {n next : Nesting}
variable {previous : Option Char}
variable {words : List Text}
variable {c : Char}
variable {t : Text}

/-
  The cut is at the first of the occurrences, and there is no
  occurrence where there is no cut.
-/
structure CutsFirst
    (n : Nesting)
    (previous : Option Char)
    (words : List Text)
    (t : Text)
    (cut : Cut) : Prop where
  free :
    cut.tail = [] →
      ∀ front keyword after,
        ¬ n.Occurs previous words t front keyword after
  occurs :
    ∀ keyword after rest, cut.tail = (keyword, after) :: rest →
      n.Occurs previous words t cut.head keyword
        (Cut.text ⟨after, rest⟩)
  least :
    ∀ front keyword after,
      n.Occurs previous words t front keyword after →
        cut.head.length ≤ front.length

/- Behind a character where the keyword does not occur. -/
theorem CutsFirst.prepend
    {cut : Cut}
    (hStep : n.step c = some next)
    (hNone :
      ∀ keyword after,
        ¬ n.Occurs previous words (c :: t) [] keyword after)
    (hCuts : next.CutsFirst (some c) words t cut) :
    n.CutsFirst previous words (c :: t) (cut.prepend [c]) := by
  -- An occurrence has the character in front of it.
  have hCons {front keyword after : Text}
      (hOccurs :
        n.Occurs previous words (c :: t) front keyword after) :
      ∃ rest,
        front = c :: rest ∧
          next.Occurs (some c) words t rest keyword after := by
    cases front with
    | nil => exact absurd hOccurs (hNone keyword after)
    | cons d rest =>
        have hSame : c = d := (List.cons.inj hOccurs.split).1
        subst hSame
        exact ⟨rest, rfl, (occurs_cons_iff hStep).mp hOccurs⟩
  refine ⟨?_, ?_, ?_⟩
  · intro hTail front keyword after hOccurs
    rcases hCons hOccurs with ⟨rest, -, hRest⟩
    exact hCuts.free hTail rest keyword after hRest
  · intro keyword after rest hTail
    exact (occurs_cons_iff hStep).mpr (hCuts.occurs keyword after rest hTail)
  · intro front keyword after hOccurs
    rcases hCons hOccurs with ⟨rest, rfl, hRest⟩
    have hLe := hCuts.least rest keyword after hRest
    simp only [Cut.prepend, List.singleton_append, List.length_cons]
    omega

/- A text is cut at the first occurrence. -/
theorem cutsFirst_ofMarks
    (hWords : ∀ w ∈ words, IsLetters w)
    (hRun : n.run t = some outside) :
    n.CutsFirst previous words t
      (Cut.ofMarks words previous (n.marking t)) := by
  induction n, previous, t, hRun using occurs_induction hWords with
  | nil previous =>
      rw [marking, Cut.ofMarks]
      exact
        ⟨fun _ _ _ _ => not_occurs_nil hWords,
          fun _ _ _ h => absurd h (by simp),
          fun _ _ _ _ => Nat.zero_le _⟩
  | occurs n previous t keyword after hRun hOccurs hBehind ih =>
      rw [ofMarks_of_occurs hWords hRun hOccurs]
      refine
        ⟨fun hTail => absurd hTail (by simp [Cut.occurrence]), ?_,
          fun _ _ _ _ => Nat.zero_le _⟩
      rintro _ _ _ ⟨⟩
      have hText :=
        Cut.text_ofMarks words keyword.getLast? (Text.marking after)
      rw [Text.text_marking hBehind] at hText
      rw [← hText] at hOccurs
      exact hOccurs
  | cons n next previous c t hRun hStep hRest hNone ih =>
      rw [ofMarks_of_not_occurs hWords hRun hStep hNone]
      exact ih.prepend hStep hNone

end Nesting

------------------------------------------------------------
-- Occurrences in a Text
------------------------------------------------------------

namespace Text

/-
  The keyword occurs in the text, between `front` and
  `after`.
-/
structure Occurs
    (words : List Text)
    (t front keyword after : Text) : Prop where
  split : t = front ++ (keyword ++ after)
  balanced : Balanced front
  endsBefore : EndsBefore front.getLast?
  spells : Spells words keyword
  endsAfter : EndsAfter after

/- It is the occurrence with the shortest text in front. -/
structure First
    (words : List Text)
    (t front keyword after : Text) : Prop where
  occurs : Occurs words t front keyword after
  least :
    ∀ front' keyword' after',
      Occurs words t front' keyword' after' →
        front.length ≤ front'.length

variable {words : List Text}
variable {s t u b front keyword after : Text}
variable {front' keyword' after' : Text}

theorem occurs_iff_outside :
    Occurs words t front keyword after ↔
      Nesting.outside.Occurs none words t front keyword after := by
  have hLast : Cut.lastOr none front = front.getLast? := Option.or_none
  constructor
  · rintro ⟨hSplit, hBalanced, hBefore, hSpells, hAfter⟩
    rw [← hLast] at hBefore
    exact ⟨hSplit, hBalanced, hBefore, hSpells, hAfter⟩
  · rintro ⟨hSplit, hRun, hBefore, hSpells, hAfter⟩
    rw [hLast] at hBefore
    exact ⟨hSplit, hRun, hBefore, hSpells, hAfter⟩

theorem cutsFirst_cutOf
    (hWords : ∀ w ∈ words, IsLetters w)
    (hBalanced : Balanced t) :
    Nesting.outside.CutsFirst none words t (cutOf words t) :=
  Nesting.cutsFirst_ofMarks hWords hBalanced

/- Two occurrences at one place are the same. -/
theorem Occurs.eq_of_length
    (hWords : ∀ w ∈ words, IsLetters w)
    (hOccurs : Occurs words t front keyword after)
    (hOther : Occurs words t front' keyword' after')
    (hLength : front.length = front'.length) :
    front = front' ∧ after = after' := by
  have hSplit :
      front ++ (keyword ++ after) = front' ++ (keyword' ++ after') :=
    hOccurs.split.symm.trans hOther.split
  rcases List.append_inj hSplit hLength with ⟨hFront, hBehind⟩
  have hFound :=
    delimitedLength?_of_spelled hWords hOccurs.spells hOccurs.endsAfter
  rw [hBehind,
    delimitedLength?_of_spelled hWords hOther.spells hOther.endsAfter]
    at hFound
  have hKeyword : keyword.length = keyword'.length :=
    (Option.some.inj hFound).symm
  exact ⟨hFront, (List.append_inj hBehind hKeyword).2⟩

/- A text is free of a keyword that does not occur in it. -/
theorem isFree_iff
    (hWords : ∀ w ∈ words, IsLetters w)
    (hBalanced : Balanced t) :
    IsFree words t ↔
      ∀ front keyword after,
        ¬ Occurs words t front keyword after := by
  have hCuts := cutsFirst_cutOf hWords hBalanced
  constructor
  · intro hFree front keyword after hOccurs
    refine hCuts.free ?_ front keyword after (occurs_iff_outside.mp hOccurs)
    rw [hFree]
  · intro hNone
    apply isFree_of_tail hBalanced
    cases hTail : (cutOf words t).tail with
    | nil => rfl
    | cons first rest =>
        exact
          absurd
            (occurs_iff_outside.mpr
              (hCuts.occurs first.1 first.2 rest hTail))
            (hNone _ _ _)

/- A keyword that a text is not free of has a first occurrence. -/
theorem exists_first_of_not_isFree
    (hWords : ∀ w ∈ words, IsLetters w)
    (hBalanced : Balanced t)
    (hOccurs : ¬ IsFree words t) :
    ∃ front keyword after, First words t front keyword after := by
  have hCuts := cutsFirst_cutOf hWords hBalanced
  cases hTail : (cutOf words t).tail with
  | nil => exact absurd (isFree_of_tail hBalanced hTail) hOccurs
  | cons first rest =>
      refine
        ⟨_, _, _,
          occurs_iff_outside.mpr
            (hCuts.occurs first.1 first.2 rest hTail),
          fun front' keyword' after' hOther => ?_⟩
      exact
        hCuts.least front' keyword' after' (occurs_iff_outside.mp hOther)

/- The text is cut at the first occurrence. -/
theorem First.cutOf
    (hWords : ∀ w ∈ words, IsLetters w)
    (hBalanced : Balanced t)
    (hFirst : First words t front keyword after) :
    (cutOf words t).head = front ∧
      (cutOf words t).afterFirst? = some after := by
  have hCuts := cutsFirst_cutOf hWords hBalanced
  have hOccurs := occurs_iff_outside.mp hFirst.occurs
  cases hTail : (Text.cutOf words t).tail with
  | nil =>
      exact absurd hOccurs (hCuts.free hTail front keyword after)
  | cons first rest =>
      have hFound :=
        occurs_iff_outside.mpr
          (hCuts.occurs first.1 first.2 rest hTail)
      have hLength :=
        Nat.le_antisymm (hCuts.least front keyword after hOccurs)
          (hFirst.least _ _ _ hFound)
      rcases hFound.eq_of_length hWords hFirst.occurs hLength
        with ⟨hFront, hAfter⟩
      rw [Cut.afterFirst?, hTail]
      exact ⟨hFront, congrArg some hAfter⟩

/- First occurrences are the same. -/
theorem First.unique
    (hWords : ∀ w ∈ words, IsLetters w)
    (hFirst : First words t front keyword after)
    (hOther : First words t front' keyword' after') :
    front = front' ∧ after = after' :=
  hFirst.occurs.eq_of_length hWords hOther.occurs
    (Nat.le_antisymm (hFirst.least _ _ _ hOther.occurs)
      (hOther.least _ _ _ hFirst.occurs))

/- What is behind the first occurrence of a keyword. -/
theorem afterFirst?_cutOf_eq_some_iff
    (hWords : ∀ w ∈ words, IsLetters w)
    (hBalanced : Balanced t) :
    (cutOf words t).afterFirst? = some after ↔
      ∃ front keyword, First words t front keyword after := by
  constructor
  · intro hAfter
    have hSome : ¬ IsFree words t := by
      intro hFree
      rw [hFree] at hAfter
      cases hAfter
    rcases exists_first_of_not_isFree hWords hBalanced hSome
      with ⟨front, keyword, behind, hFirst⟩
    have hEq := (hFirst.cutOf hWords hBalanced).2
    rw [hAfter, Option.some.injEq] at hEq
    exact ⟨front, keyword, hEq ▸ hFirst⟩
  · rintro ⟨front, keyword, hFirst⟩
    exact (hFirst.cutOf hWords hBalanced).2

------------------------------------------------------------
-- Parts of a Text
------------------------------------------------------------

/- A keyword begins with a letter. -/
theorem Occurs.head?_behind
    (hWords : ∀ w ∈ words, IsLetters w)
    (hOccurs : Occurs words t front keyword after) :
    (keyword ++ after).head?.any Char.isAlpha = true := by
  have hHead := head?_of_spells hWords hOccurs.spells
  cases keyword with
  | nil => exact absurd hHead (by simp)
  | cons c keyword => exact hHead

/- What is behind an occurrence in a balanced text is balanced. -/
theorem Occurs.balanced_through
    (hWords : ∀ w ∈ words, IsLetters w)
    (hOccurs : Occurs words t front keyword after) :
    Balanced (front ++ keyword) :=
  balanced_append hOccurs.balanced
    (balanced_of_plain (plain_of_spells hWords hOccurs.spells))

theorem Occurs.balanced_after
    (hWords : ∀ w ∈ words, IsLetters w)
    (hBalanced : Balanced t)
    (hOccurs : Occurs words t front keyword after) :
    Balanced after := by
  rw [hOccurs.split, ← List.append_assoc] at hBalanced
  exact
    (balanced_append_iff (hOccurs.balanced_through hWords)).mp hBalanced

/- Behind a balanced text the occurrences are the same. -/
theorem occurs_append_iff
    (hBalanced : Balanced s)
    (hNotNil : front ≠ []) :
    Occurs words (s ++ t) (s ++ front) keyword after ↔
      Occurs words t front keyword after := by
  have hLast := List.getLast?_append_of_ne_nil s hNotNil
  constructor
  · rintro ⟨hSplit, hFront, hBefore, hSpells, hAfter⟩
    rw [hLast] at hBefore
    rw [List.append_assoc] at hSplit
    exact
      ⟨List.append_cancel_left hSplit,
        (balanced_append_iff hBalanced).mp hFront, hBefore, hSpells,
        hAfter⟩
  · rintro ⟨hSplit, hFront, hBefore, hSpells, hAfter⟩
    rw [← hLast] at hBefore
    refine
      ⟨?_, balanced_append hBalanced hFront, hBefore, hSpells, hAfter⟩
    rw [List.append_assoc, ← hSplit]

/- No keyword occurs right behind a keyword. -/
theorem Occurs.ne_nil_of_endsAfter
    (hWords : ∀ w ∈ words, IsLetters w)
    (hEnds : EndsAfter t)
    (hOccurs : Occurs words t front keyword after) :
    front ≠ [] := by
  rintro rfl
  have hHead := hOccurs.head?_behind hWords
  have hSplit : t = keyword ++ after := hOccurs.split
  rw [← hSplit] at hHead
  cases t with
  | nil => exact absurd hHead (by simp)
  | cons c t =>
      have hAlpha : c.isAlpha = true := hHead
      have hName := isNameChar_of_isAlpha hAlpha
      have hParen : c = '(' := by
        simpa [EndsAfter, isBlank_eq_false_of_isAlpha hAlpha] using hEnds
      exact
        not_isDelimiter_of_isNameChar hName
          (Or.inr (Or.inl hParen))

theorem Occurs.append_left
    (hWords : ∀ w ∈ words, IsLetters w)
    (hBalanced : Balanced s)
    (hEnds : EndsAfter t)
    (hOccurs : Occurs words t front keyword after) :
    Occurs words (s ++ t) (s ++ front) keyword after :=
  (occurs_append_iff hBalanced
    (hOccurs.ne_nil_of_endsAfter hWords hEnds)).mpr hOccurs

/- No keyword occurs right behind a letter. -/
theorem not_endsBefore_of_isAlpha
    (hLast : t.getLast?.any Char.isAlpha = true) :
    ¬ EndsBefore t.getLast? := by
  cases hGet : t.getLast? with
  | none => rw [hGet] at hLast; exact absurd hLast (by simp)
  | some c =>
      rw [hGet] at hLast
      have hName := isNameChar_of_isAlpha hLast
      intro hEnds
      have hParen : c = ')' := by
        simpa [EndsBefore, isBlank_eq_false_of_isNameChar hName]
          using hEnds
      exact
        not_isDelimiter_of_isNameChar hName
          (Or.inr (Or.inr hParen))

/- An occurrence behind a keyword is one in the text behind. -/
theorem Occurs.exists_behind
    (hBalanced : Balanced s)
    (hLast : s.getLast?.any Char.isAlpha = true)
    (hLe : s.length ≤ front.length)
    (hOccurs : Occurs words (s ++ t) front keyword after) :
    ∃ rest,
      front = s ++ rest ∧ Occurs words t rest keyword after := by
  have hPrefix : s <+: front :=
    List.prefix_of_prefix_length_le (List.prefix_append s t)
      (hOccurs.split ▸ List.prefix_append _ _) hLe
  rcases hPrefix with ⟨rest, rfl⟩
  have hNotNil : rest ≠ [] := by
    rintro rfl
    have hBefore := hOccurs.endsBefore
    rw [List.append_nil] at hBefore
    exact not_endsBefore_of_isAlpha hLast hBefore
  exact ⟨rest, rfl, (occurs_append_iff hBalanced hNotNil).mp hOccurs⟩

/- Blanks in front of a text stand in front of its keywords. -/
theorem Occurs.length_le_of_isBlank
    (hWords : ∀ w ∈ words, IsLetters w)
    (hBlank : IsBlank b)
    (hOccurs : Occurs words (b ++ t) front keyword after) :
    b.length ≤ front.length := by
  by_contra hLt
  rw [Nat.not_le] at hLt
  have hPrefix : front <+: b :=
    List.prefix_of_prefix_length_le
      (hOccurs.split ▸ List.prefix_append _ _)
      (List.prefix_append b t) hLt.le
  rcases hPrefix with ⟨rest, rfl⟩
  have hSplit := hOccurs.split
  rw [List.append_assoc] at hSplit
  have hHead := hOccurs.head?_behind hWords
  rw [← List.append_cancel_left hSplit] at hHead
  cases rest with
  | nil => simp at hLt
  | cons c rest =>
      have hAlpha : c.isAlpha = true := hHead
      rw [isBlank_append, isBlank_cons] at hBlank
      rw [isBlank_eq_false_of_isAlpha hAlpha] at hBlank
      exact absurd hBlank.2.1 (by simp)

/- A keyword can stand behind blanks. -/
theorem endsBefore_of_isBlank
    (hBlank : IsBlank b) :
    EndsBefore b.getLast? := by
  cases hGet : b.getLast? with
  | none => rfl
  | some c =>
      have hChar := isBlank_iff.mp hBlank c (List.mem_of_getLast? hGet)
      simp [EndsBefore, hChar]

/- Blanks in front of a text make no difference. -/
theorem Occurs.blank_append
    (hBlank : IsBlank b)
    (hOccurs : Occurs words t front keyword after) :
    Occurs words (b ++ t) (b ++ front) keyword after := by
  refine
    ⟨?_, balanced_append (balanced_of_isBlank hBlank) hOccurs.balanced,
      ?_, hOccurs.spells, hOccurs.endsAfter⟩
  · rw [hOccurs.split, List.append_assoc]
  · by_cases hNil : front = []
    · rw [hNil, List.append_nil]
      exact endsBefore_of_isBlank hBlank
    · rw [List.getLast?_append_of_ne_nil b hNil]
      exact hOccurs.endsBefore

/-
  An occurrence in the first part of a text is one in the
  whole text, if the part does not end in a word that goes on.
-/
theorem Occurs.append_right
    (hWords : ∀ w ∈ words, IsLetters w)
    (hEnd : EndsAfter u ∨ EndsBefore t.getLast?)
    (hOccurs : Occurs words t front keyword after) :
    Occurs words (t ++ u) front keyword (after ++ u) := by
  refine
    ⟨?_, hOccurs.balanced, hOccurs.endsBefore, hOccurs.spells, ?_⟩
  · rw [hOccurs.split]
    simp
  · cases after with
    | cons c after => exact hOccurs.endsAfter
    | nil =>
        rcases hEnd with hAfter | hBefore
        · exact hAfter
        · have hLast :
              t.getLast?.any Char.isAlpha = true := by
            rw [hOccurs.split, List.append_nil,
              List.getLast?_append_of_ne_nil _
                (ne_nil_of_spells hWords hOccurs.spells)]
            exact getLast?_of_spells hWords hOccurs.spells
          exact absurd hBefore (not_endsBefore_of_isAlpha hLast)

/- What ends in the first part of a text occurs in it. -/
theorem Occurs.exists_restrict
    (hOccurs : Occurs words (t ++ u) front keyword after)
    (hLe : (front ++ keyword).length ≤ t.length) :
    ∃ rest, Occurs words t front keyword rest := by
  have hSplit := hOccurs.split
  rw [← List.append_assoc] at hSplit
  have hPrefix : front ++ keyword <+: t :=
    List.prefix_of_prefix_length_le ⟨after, hSplit.symm⟩
      (List.prefix_append t u) hLe
  rcases hPrefix with ⟨rest, rfl⟩
  rw [List.append_assoc] at hSplit
  have hAfter := List.append_cancel_left hSplit
  refine
    ⟨rest, List.append_assoc .., hOccurs.balanced, hOccurs.endsBefore,
      hOccurs.spells, ?_⟩
  have hEnds := hOccurs.endsAfter
  rw [← hAfter] at hEnds
  cases rest with
  | nil => rfl
  | cons c rest => exact hEnds

end Text

end SqlSelect
