import SqlSelect.Proofs.Nesting.Sections

/-
  Texts composed of keywords, with a text in front of the
  first of them and one behind each. A keyword that occurs in
  such a text is one of those that it is composed of or occurs
  in one of the texts, so a text is composed of the same
  keywords in one way only, if no other occurrence of them is
  in it.

  Main statements:
    * `Text.Occurs.front_or_behind`
    * `Text.isFree_of_first_word`
    * `Text.isFree_append_point`
    * `Text.first_iff`
    * `Text.First.exists_between`
    * `Text.Composed`
    * `Text.Composed.isFree`
    * `Text.Composed.exists_first`
    * `Text.Composed.unique`
-/

namespace SqlSelect

namespace Text

variable {word word' : Text}
variable {t front keyword after : Text}
variable {front' keyword' after' : Text}

------------------------------------------------------------
-- Keywords of One Word
------------------------------------------------------------

/- A keyword of one word is spelled with this word. -/
theorem sameWord_of_spells
    (hSpells : Spells [word] t) :
    SameWord t word := by
  rcases hSpells with ⟨spelled, following, rfl, hSame, rfl⟩
  rwa [List.append_nil]

theorem isLetters_of_mem_singleton
    (hLetters : IsLetters word) :
    ∀ w ∈ [word], IsLetters w := by
  simpa using hLetters

/- Where a keyword ends, no name goes on. -/
theorem head?_of_endsAfter
    (hEnds : EndsAfter after) :
    after.head?.any isNameChar = false := by
  cases after with
  | nil => rfl
  | cons c after =>
      have hOpen : isNameChar '(' = false := by decide +kernel
      have hBoth : SqlSelect.isBlank c = true ∨ c = '(' := by
        simpa [EndsAfter] using hEnds
      rcases hBoth with hBlank | rfl
      · simp [isNameChar_eq_false_of_isBlank hBlank]
      · simp [hOpen]

/- A name ends where no character of a name comes next. -/
theorem takeWhile_isNameChar_append
    (hNames : ∀ c ∈ t, isNameChar c = true)
    (hStop : after.head?.any isNameChar = false) :
    (t ++ after).takeWhile isNameChar = t := by
  have hNone : after.takeWhile isNameChar = [] := by
    cases after with
    | nil => rfl
    | cons c after => simpa using hStop
  rw [List.takeWhile_append_of_pos hNames, hNone, List.append_nil]

/- The word in front of a text is the keyword that begins it. -/
theorem sameWord_takeWhile_of_delimitedLength?
    {length : Nat}
    (hLetters : IsLetters word)
    (hFound : delimitedLength? [word] t = some length) :
    SameWord (t.takeWhile isNameChar) word := by
  rcases exists_spelled_of_delimitedLength?
      (isLetters_of_mem_singleton hLetters) hFound
    with ⟨k, rest, rfl, -, hSpells, hEnds⟩
  have hSame := sameWord_of_spells hSpells
  have hNames :=
    isNameChar_of_isLetters (isLetters_of_sameWord hSame hLetters)
  rwa [takeWhile_isNameChar_append hNames (head?_of_endsAfter hEnds)]

/- Keywords at one place are one word. -/
theorem Occurs.sameWord_of_length
    (hLetters : IsLetters word)
    (hLetters' : IsLetters word')
    (hOccurs : Occurs [word] t front keyword after)
    (hOther : Occurs [word'] t front' keyword' after')
    (hLength : front.length = front'.length) :
    SameWord word word' := by
  have hSame := sameWord_of_spells hOccurs.spells
  have hSame' := sameWord_of_spells hOther.spells
  have hBehind : keyword ++ after = keyword' ++ after' :=
    (List.append_inj (hOccurs.split.symm.trans hOther.split) hLength).2
  have hKeyword : keyword = keyword' := by
    rw [← takeWhile_isNameChar_append
        (isNameChar_of_isLetters (isLetters_of_sameWord hSame hLetters))
        (head?_of_endsAfter hOccurs.endsAfter),
      hBehind,
      takeWhile_isNameChar_append
        (isNameChar_of_isLetters (isLetters_of_sameWord hSame' hLetters'))
        (head?_of_endsAfter hOther.endsAfter)]
  rw [hKeyword] at hSame
  exact hSame.symm.trans hSame'

/- A keyword of one word ends in front of a later one. -/
theorem Occurs.exists_between
    (hLetters : IsLetters word)
    (hLetters' : IsLetters word')
    (hOccurs : Occurs [word] t front keyword after)
    (hOther : Occurs [word'] t front' keyword' after')
    (hLt : front.length < front'.length) :
    ∃ u,
      front' = front ++ (keyword ++ u) ∧
        Occurs [word'] after u keyword' after' := by
  have hWords := isLetters_of_mem_singleton hLetters
  have hLe :=
    hOccurs.length_le_of_lt hWords
      (isLetters_of_mem_singleton hLetters') hOther (by simp) hLt
  have hLast :
      (front ++ keyword).getLast?.any Char.isAlpha = true := by
    rw [List.getLast?_append_of_ne_nil _
      (ne_nil_of_spells hWords hOccurs.spells)]
    exact getLast?_of_spells hWords hOccurs.spells
  have hSplit := hOccurs.split
  rw [← List.append_assoc] at hSplit
  rw [hSplit] at hOther
  rcases hOther.exists_behind (hOccurs.balanced_through hWords) hLast hLe
    with ⟨u, hFront, hRest⟩
  exact ⟨u, by rw [hFront, List.append_assoc], hRest⟩

/- Another keyword occurs in front of a keyword or behind it. -/
theorem Occurs.front_or_behind
    (hLetters : IsLetters word)
    (hLetters' : IsLetters word')
    (hDiffer : ¬ SameWord word word')
    (hOccurs : Occurs [word] t front keyword after)
    (hOther : Occurs [word'] t front' keyword' after') :
    (∃ rest, Occurs [word'] front front' keyword' rest) ∨
      ∃ u,
        front' = front ++ (keyword ++ u) ∧
          Occurs [word'] after u keyword' after' := by
  rcases Nat.lt_trichotomy front'.length front.length
    with hLt | hEq | hGt
  · refine .inl ?_
    have hLe :=
      hOther.length_le_of_lt (isLetters_of_mem_singleton hLetters')
        (isLetters_of_mem_singleton hLetters) hOccurs (by simp) hLt
    rw [hOccurs.split] at hOther
    exact hOther.exists_restrict hLe
  · exact
      absurd
        (hOccurs.sameWord_of_length hLetters hLetters' hOther hEq.symm)
        hDiffer
  · exact
      .inr (hOccurs.exists_between hLetters hLetters' hOther hGt)

------------------------------------------------------------
-- Free of Words
------------------------------------------------------------

variable {words : List Text}
variable {v w : Text}

/- A keyword occurs nowhere if the first of its words does not. -/
theorem isFree_of_first_word
    (hWords : ∀ w ∈ word :: words, IsLetters w)
    (hBalanced : Balanced t)
    (hFree : IsFree [word] t) :
    IsFree (word :: words) t := by
  have hLetters :=
    isLetters_of_mem_singleton (hWords word List.mem_cons_self)
  rw [isFree_iff hLetters hBalanced] at hFree
  rw [isFree_iff hWords hBalanced]
  rintro front keyword after ⟨hSplit, hFront, hBefore, hSpells, hEnds⟩
  rcases hSpells with ⟨spelled, following, rfl, hSame, hFollowing⟩
  exact
    hFree front spelled (following ++ after)
      ⟨by rw [hSplit, List.append_assoc], hFront, hBefore,
        spells_singleton hSame,
        endsAfter_append (endsAfter_of_spellsAfter hFollowing) hEnds⟩

/- A name in front is no place for a word that it does not spell. -/
theorem isFree_name_append
    {name : Text}
    (hLetters : IsLetters word)
    (hNames : ∀ c ∈ name, isNameChar c = true)
    (hOther : ¬ SameWord name word)
    (hStop : t.head?.any isNameChar = false)
    (hBalanced : Balanced t)
    (hFree : IsFree [word] t) :
    IsFree [word] (name ++ t) := by
  have hNone : delimitedLength? [word] (name ++ t) = none := by
    cases hFound : delimitedLength? [word] (name ++ t) with
    | none => rfl
    | some length =>
        have hLeading :=
          sameWord_takeWhile_of_delimitedLength? hLetters hFound
        rw [takeWhile_isNameChar_append hNames hStop] at hLeading
        exact absurd hLeading hOther
  have hHead : t.head?.any Char.isAlpha = false := by
    cases t with
    | nil => rfl
    | cons c t =>
        rw [List.head?_cons, Option.any_some] at hStop ⊢
        by_contra hAlpha
        rw [isNameChar_of_isAlpha (by simpa using hAlpha)] at hStop
        cases hStop
  rw [IsFree,
    cutOf_word_append (isLetters_of_mem_singleton hLetters) hNames
      hBalanced hHead hNone,
    hFree]
  rfl

/- A word neither runs over a point nor begins behind it. -/
theorem isFree_append_point
    (hLetters : IsLetters word)
    (hBalanced : Balanced v)
    (hBalanced' : Balanced w)
    (hFree : IsFree [word] v)
    (hFree' : IsFree [word] w) :
    IsFree [word] (v ++ '.' :: w) := by
  have hWords := isLetters_of_mem_singleton hLetters
  have hPoint : Balanced (v ++ ['.']) :=
    balanced_append hBalanced (by decide)
  have hWhole : v ++ '.' :: w = v ++ ['.'] ++ w := by simp
  rw [isFree_iff hWords hBalanced] at hFree
  rw [isFree_iff hWords hBalanced'] at hFree'
  rw [isFree_iff hWords (hWhole ▸ balanced_append hPoint hBalanced')]
  intro front keyword after hOccurs
  have hAlpha (c : Char) (hMem : c ∈ keyword) : c.isAlpha = true :=
    isAlpha_of_mem
      (isLetters_of_sameWord (sameWord_of_spells hOccurs.spells) hLetters)
      hMem
  have hNoPoint : '.' ∉ keyword := fun hMem =>
    absurd (hAlpha '.' hMem) (by decide)
  rcases List.append_eq_append_iff.mp hOccurs.split with
    ⟨u, hFront, hBehind⟩ | ⟨u, hV, hKeyword⟩
  · cases u with
    | nil =>
        have hSome := ne_nil_of_spells hWords hOccurs.spells
        cases keyword with
        | nil => exact hSome rfl
        | cons c keyword =>
            have hSame : '.' = c := (List.cons.inj hBehind).1
            exact hNoPoint (hSame ▸ List.mem_cons_self)
    | cons c u =>
        have hSame : '.' = c := (List.cons.inj hBehind).1
        subst hSame
        have hSplit : front = v ++ ['.'] ++ u := by simp [hFront]
        rw [hWhole, hSplit] at hOccurs
        by_cases hNil : u = []
        · have hBefore := hOccurs.endsBefore
          rw [hNil, List.append_nil,
            List.getLast?_append_of_ne_nil v (List.cons_ne_nil '.' [])]
            at hBefore
          exact absurd hBefore (by decide)
        · exact hFree' _ _ _ ((occurs_append_iff hPoint hNil).mp hOccurs)
  · rcases List.append_eq_append_iff.mp hKeyword with
      ⟨rest, hU, -⟩ | ⟨rest, hRest, hBehind⟩
    · rcases hOccurs.exists_restrict (by simp [hV, hU]) with ⟨_, hIn⟩
      exact hFree _ _ _ hIn
    · cases rest with
      | nil =>
          rw [List.append_nil] at hRest
          rcases hOccurs.exists_restrict (by simp [hV, hRest])
            with ⟨_, hIn⟩
          exact hFree _ _ _ hIn
      | cons c rest =>
          have hSame : '.' = c := (List.cons.inj hBehind).1
          subst hSame
          exact hNoPoint (by simp [hRest])

------------------------------------------------------------
-- First Occurrences
------------------------------------------------------------

/- What occurs in front of a keyword occurs in the whole text. -/
theorem Occurs.of_front
    (hLetters' : IsLetters word')
    (hOccurs : Occurs [word] t front keyword after)
    (hOther : Occurs [word'] front front' keyword' after') :
    Occurs [word'] t front' keyword' (after' ++ (keyword ++ after)) := by
  rw [hOccurs.split]
  exact
    hOther.append_right (isLetters_of_mem_singleton hLetters')
      (.inr hOccurs.endsBefore)

/- What occurs behind a keyword occurs in the whole text. -/
theorem Occurs.of_behind
    (hLetters : IsLetters word)
    (hLetters' : IsLetters word')
    (hOccurs : Occurs [word] t front keyword after)
    (hOther : Occurs [word'] after front' keyword' after') :
    Occurs [word'] t (front ++ (keyword ++ front')) keyword' after' := by
  have hWhole :=
    hOther.append_left (isLetters_of_mem_singleton hLetters')
      (hOccurs.balanced_through (isLetters_of_mem_singleton hLetters))
      hOccurs.endsAfter
  rw [List.append_assoc, List.append_assoc, ← hOccurs.split] at hWhole
  exact hWhole

/- An occurrence is the first if the text in front is free. -/
theorem first_iff
    (hLetters : IsLetters word) :
    First [word] t front keyword after ↔
      Occurs [word] t front keyword after ∧ IsFree [word] front := by
  have hWords := isLetters_of_mem_singleton hLetters
  constructor
  · intro hFirst
    refine ⟨hFirst.occurs, ?_⟩
    rw [isFree_iff hWords hFirst.occurs.balanced]
    intro front' keyword' after' hOther
    have hLe :=
      hFirst.least _ _ _ (hFirst.occurs.of_front hLetters hOther)
    have hPos :=
      List.length_pos_iff.mpr (ne_nil_of_spells hWords hOther.spells)
    rw [hOther.split, List.length_append, List.length_append] at hLe
    omega
  · rintro ⟨hOccurs, hFree⟩
    refine ⟨hOccurs, fun front' keyword' after' hOther => ?_⟩
    by_contra hLt
    rw [Nat.not_le] at hLt
    have hLe :=
      hOther.length_le_of_lt hWords hWords hOccurs (by simp) hLt
    rw [hOccurs.split] at hOther
    rcases hOther.exists_restrict hLe with ⟨rest, hInFront⟩
    exact
      (isFree_iff hWords hOccurs.balanced).mp hFree _ _ _ hInFront

/-
  The first occurrence of a keyword is the first one behind
  an earlier keyword.
-/
theorem First.exists_between
    (hLetters : IsLetters word)
    (hLetters' : IsLetters word')
    (hOccurs : Occurs [word] t front keyword after)
    (hFirst : First [word'] t front' keyword' after')
    (hLt : front.length < front'.length) :
    ∃ u,
      front' = front ++ (keyword ++ u) ∧
        First [word'] after u keyword' after' := by
  rcases hOccurs.exists_between hLetters hLetters' hFirst.occurs hLt
    with ⟨u, rfl, hBehind⟩
  refine ⟨u, rfl, hBehind, fun front' keyword' after' hOther => ?_⟩
  have hLe :=
    hFirst.least _ _ _ (hOccurs.of_behind hLetters hLetters' hOther)
  simpa using hLe

/-
  The first occurrence behind another keyword is the first
  one, if the text in front of that keyword is free.
-/
theorem First.of_behind
    (hLetters : IsLetters word)
    (hLetters' : IsLetters word')
    (hDiffer : ¬ SameWord word word')
    (hOccurs : Occurs [word] t front keyword after)
    (hFree : IsFree [word'] front)
    (hFirst : First [word'] after front' keyword' after') :
    First [word'] t (front ++ (keyword ++ front')) keyword' after' := by
  refine
    ⟨hOccurs.of_behind hLetters hLetters' hFirst.occurs,
      fun other k a hOther => ?_⟩
  rcases hOccurs.front_or_behind hLetters hLetters' hDiffer hOther
    with ⟨rest, hFront⟩ | ⟨u, rfl, hBehind⟩
  · exact
      absurd hFront
        ((isFree_iff (isLetters_of_mem_singleton hLetters')
          hOccurs.balanced).mp hFree _ _ _)
  · have hLe := hFirst.least _ _ _ hBehind
    simpa using hLe

/- A keyword that occurs neither in front nor behind is nowhere. -/
theorem Occurs.isFree
    (hLetters : IsLetters word)
    (hLetters' : IsLetters word')
    (hDiffer : ¬ SameWord word word')
    (hOccurs : Occurs [word] t front keyword after)
    (hAfter : Balanced after)
    (hFront : IsFree [word'] front)
    (hBehind : IsFree [word'] after) :
    IsFree [word'] t := by
  have hWords := isLetters_of_mem_singleton hLetters
  have hWords' := isLetters_of_mem_singleton hLetters'
  have hBalanced : Balanced t := by
    rw [hOccurs.split, ← List.append_assoc]
    exact balanced_append (hOccurs.balanced_through hWords) hAfter
  rw [isFree_iff hWords' hBalanced]
  intro other k a hOther
  rcases hOccurs.front_or_behind hLetters hLetters' hDiffer hOther
    with ⟨rest, hIn⟩ | ⟨u, -, hIn⟩
  · exact (isFree_iff hWords' hOccurs.balanced).mp hFront _ _ _ hIn
  · exact (isFree_iff hWords' hAfter).mp hBehind _ _ _ hIn

/-
  A keyword stands in front of another one if it does not
  occur behind it.
-/
theorem Occurs.length_lt_of_isFree
    (hLetters : IsLetters word)
    (hLetters' : IsLetters word')
    (hDiffer : ¬ SameWord word word')
    (hOccurs : Occurs [word] t front keyword after)
    (hAfter : Balanced after)
    (hBehind : IsFree [word'] after)
    (hOther : Occurs [word'] t front' keyword' after') :
    front'.length < front.length := by
  have hWords' := isLetters_of_mem_singleton hLetters'
  rcases hOccurs.front_or_behind hLetters hLetters' hDiffer hOther
    with ⟨rest, hIn⟩ | ⟨u, -, hIn⟩
  · have hPos :=
      List.length_pos_iff.mpr (ne_nil_of_spells hWords' hIn.spells)
    rw [hIn.split, List.length_append, List.length_append]
    omega
  · exact
      absurd hIn ((isFree_iff hWords' hAfter).mp hBehind _ _ _)

/-
  What is in front of a keyword is free of another one that
  does not occur before.
-/
theorem First.isFree_front
    (hLetters' : IsLetters word')
    (hOccurs : Occurs [word] t front keyword after)
    (hFirst : First [word'] t front' keyword' after')
    (hLe : front.length ≤ front'.length) :
    IsFree [word'] front := by
  have hWords' := isLetters_of_mem_singleton hLetters'
  rw [isFree_iff hWords' hOccurs.balanced]
  intro other k a hOther
  have hFront := hFirst.least _ _ _ (hOccurs.of_front hLetters' hOther)
  have hPos :=
    List.length_pos_iff.mpr (ne_nil_of_spells hWords' hOther.spells)
  rw [hOther.split, List.length_append, List.length_append] at hLe
  omega

/-
  So does it in a text between two others, if it occurs first
  where the second of them stands, or behind.
-/
theorem First.isFree_between
    {u keyword'' after'' : Text}
    (hLetters : IsLetters word)
    (hLetters' : IsLetters word')
    (hOccurs : Occurs [word] t front keyword after)
    (hNext : Occurs [word''] after u keyword'' after'')
    (hFirst : First [word'] t front' keyword' after')
    (hLe : (front ++ (keyword ++ u)).length ≤ front'.length) :
    IsFree [word'] u := by
  have hPos :=
    List.length_pos_iff.mpr
      (ne_nil_of_spells (isLetters_of_mem_singleton hLetters)
        hOccurs.spells)
  have hLt : front.length < front'.length := by
    rw [List.length_append, List.length_append] at hLe
    omega
  rcases hFirst.exists_between hLetters hLetters' hOccurs hLt
    with ⟨v, hFront, hBehind⟩
  apply hBehind.isFree_front hLetters' hNext
  rw [hFront] at hLe
  simpa using hLe

------------------------------------------------------------
-- Compositions
------------------------------------------------------------

/-
  The text is composed of `front` and of keywords, each with
  the text behind it, where each keyword is given by its word
  and spelled in any letter case.
-/
def Composed : Text → List (Text × Text) → Text → Prop
  | front, [], t => t = front ∧ Balanced t
  | front, (word, behind) :: parts, t =>
      ∃ keyword after,
        Occurs [word] t front keyword after ∧
          Composed behind parts after

variable {behind : Text}
variable {parts parts' : List (Text × Text)}

theorem Composed.balanced
    (hLetters : ∀ part ∈ parts, IsLetters part.1)
    (hComposed : Composed front parts t) :
    Balanced t := by
  induction parts generalizing front t with
  | nil => exact hComposed.2
  | cons part parts ih =>
      rcases hComposed with ⟨keyword, after, hOccurs, hRest⟩
      have hAfter :=
        ih (fun p h => hLetters p (List.mem_cons_of_mem part h)) hRest
      rw [hOccurs.split, ← List.append_assoc]
      exact
        balanced_append
          (hOccurs.balanced_through
            (isLetters_of_mem_singleton
              (hLetters part List.mem_cons_self)))
          hAfter

/- A keyword that occurs in no part and is no part is nowhere. -/
theorem Composed.isFree
    (hLetters : ∀ part ∈ parts, IsLetters part.1)
    (hLetters' : IsLetters word')
    (hFront : IsFree [word'] front)
    (hParts :
      ∀ part ∈ parts, ¬ SameWord part.1 word' ∧ IsFree [word'] part.2)
    (hComposed : Composed front parts t) :
    IsFree [word'] t := by
  induction parts generalizing front t with
  | nil => exact hComposed.1 ▸ hFront
  | cons part parts ih =>
      rcases hComposed with ⟨keyword, after, hOccurs, hRest⟩
      have hLater :
          ∀ p ∈ parts, IsLetters p.1 :=
        fun p h => hLetters p (List.mem_cons_of_mem part h)
      have hHere := hParts part List.mem_cons_self
      exact
        hOccurs.isFree (hLetters part List.mem_cons_self) hLetters'
          hHere.1 (hRest.balanced hLater) hFront
          (ih hLater hHere.2
            (fun p h => hParts p (List.mem_cons_of_mem part h)) hRest)

/-
  A keyword occurs first where the text is composed of it, if
  nothing in front of that place is the same keyword or holds
  it. By induction on the parts in front.
-/
theorem Composed.exists_first
    {before : List (Text × Text)}
    (hLetters : ∀ part ∈ before, IsLetters part.1)
    (hLetters' : IsLetters word)
    (hFront : IsFree [word] front)
    (hBefore :
      ∀ part ∈ before, ¬ SameWord part.1 word ∧ IsFree [word] part.2)
    (hComposed :
      Composed front (before ++ (word, behind) :: parts) t) :
    ∃ front' keyword after,
      First [word] t front' keyword after ∧
        Composed behind parts after := by
  induction before generalizing front t with
  | nil =>
      rcases hComposed with ⟨keyword, after, hOccurs, hRest⟩
      exact
        ⟨front, keyword, after,
          (first_iff hLetters').mpr ⟨hOccurs, hFront⟩, hRest⟩
  | cons part before ih =>
      rcases hComposed with ⟨keyword, after, hOccurs, hRest⟩
      have hHere := hBefore part List.mem_cons_self
      rcases
          ih (fun p h => hLetters p (List.mem_cons_of_mem part h))
            hHere.2
            (fun p h => hBefore p (List.mem_cons_of_mem part h)) hRest
        with ⟨front', keyword', after', hFirst, hBehind⟩
      exact
        ⟨_, keyword', after',
          hFirst.of_behind (hLetters part List.mem_cons_self) hLetters'
            hHere.1 hOccurs hFront,
          hBehind⟩

/-
  A text that ends with a keyword has there the text in front
  of that keyword. By induction on the parts before.
-/
theorem Composed.exists_occurs_last
    {before : List (Text × Text)}
    (hLetters : ∀ part ∈ before, IsLetters part.1)
    (hWord : IsLetters word)
    (hWord' : IsLetters word')
    (hComposed :
      Composed front (before ++ [(word, behind), (word', [])]) t) :
    ∃ front' keyword, Occurs [word'] t (front' ++ behind) keyword [] := by
  induction before generalizing front t with
  | nil =>
      rcases hComposed with ⟨keyword, after, hOccurs, keyword', after',
        hOther, rfl, -⟩
      refine ⟨front ++ keyword, keyword', ?_⟩
      rw [List.append_assoc]
      exact hOccurs.of_behind hWord hWord' hOther
  | cons part before ih =>
      rcases hComposed with ⟨keyword, after, hOccurs, hRest⟩
      rcases ih (fun p h => hLetters p (List.mem_cons_of_mem part h)) hRest
        with ⟨front', keyword', hOther⟩
      refine ⟨front ++ (keyword ++ front'), keyword', ?_⟩
      rw [List.append_assoc, List.append_assoc]
      exact
        hOccurs.of_behind (hLetters part List.mem_cons_self) hWord' hOther

/-
  A text is composed of the same keywords in one way only, if
  none of them occurs in any of the texts between them. By
  induction on the parts.
-/
theorem Composed.unique
    (hLetters : ∀ part ∈ parts, IsLetters part.1)
    (hDiffer :
      parts.Pairwise fun p q => ¬ SameWord q.1 p.1)
    (hFree :
      ∀ part ∈ parts,
        IsFree [part.1] front ∧
          ∀ other ∈ parts, IsFree [part.1] other.2)
    (hComposed : Composed front parts t)
    (hOther : Composed front' parts' t)
    (hWords : parts'.map Prod.fst = parts.map Prod.fst) :
    front' = front ∧ parts' = parts := by
  induction parts generalizing front front' parts' t with
  | nil =>
      rw [List.map_nil, List.map_eq_nil_iff] at hWords
      subst hWords
      exact ⟨hOther.1.symm.trans hComposed.1, rfl⟩
  | cons part parts ih =>
      cases parts' with
      | nil => exact absurd hWords (by simp)
      | cons part' parts' =>
          rw [List.map_cons, List.map_cons, List.cons.injEq] at hWords
          rcases hComposed with ⟨keyword, after, hOccurs, hRest⟩
          rcases hOther with ⟨keyword', after', hOccurs', hRest'⟩
          rw [hWords.1] at hOccurs'
          have hHere := hLetters part List.mem_cons_self
          have hSingle := isLetters_of_mem_singleton hHere
          have hLater : ∀ p ∈ parts, IsLetters p.1 :=
            fun p h => hLetters p (List.mem_cons_of_mem part h)
          rw [List.pairwise_cons] at hDiffer
          have hOwn := hFree part List.mem_cons_self
          have hAfter : IsFree [part.1] after :=
            hRest.isFree hLater hHere
              (hOwn.2 part List.mem_cons_self)
              fun p h =>
                ⟨hDiffer.1 p h, hOwn.2 p (List.mem_cons_of_mem part h)⟩
          have hLe :=
            ((first_iff hHere).mpr ⟨hOccurs, hOwn.1⟩).least _ _ _ hOccurs'
          -- A later occurrence would be in what is behind.
          have hLength : front.length = front'.length := by
            refine Nat.le_antisymm hLe ?_
            by_contra hLt
            rw [Nat.not_le] at hLt
            rcases hOccurs.exists_between hHere hHere hOccurs' hLt
              with ⟨u, -, hBehind⟩
            exact
              (isFree_iff hSingle (hRest.balanced hLater)).mp hAfter
                _ _ _ hBehind
          rcases hOccurs.eq_of_length hSingle hOccurs' hLength
            with ⟨rfl, rfl⟩
          rcases
              ih hLater hDiffer.2
                (fun p h =>
                  ⟨(hFree p (List.mem_cons_of_mem part h)).2 part
                      List.mem_cons_self,
                    fun other h' =>
                      (hFree p (List.mem_cons_of_mem part h)).2 other
                        (List.mem_cons_of_mem part h')⟩)
                hRest hRest' hWords.2
            with ⟨hBehind, rfl⟩
          exact ⟨rfl, by rw [Prod.ext hWords.1 hBehind]⟩

end Text

end SqlSelect
