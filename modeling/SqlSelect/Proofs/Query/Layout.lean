import SqlSelect.Proofs.Balance.Queries
import SqlSelect.Proofs.Nesting.Sections
import SqlSelect.Proofs.Origin.Queries

/-
  How a query is laid out. From its first keyword on, a query
  that is resolved is made of its clauses, one behind the
  other, each with its keyword and its text. What is in front
  of the first keyword is dropped, and a clause that begins
  behind a later one is part of the text of that.

  Main statements:
    * `Clause.Displaced`
    * `Clause.LaidOut`
    * `Clause.Frontier.laidOut`
    * `Clause.Passed.step`
    * `Clause.LaidOut.not_displaced`
    * `Query.laidOut_of_resolve`
-/

namespace SqlSelect

------------------------------------------------------------
-- Layouts
------------------------------------------------------------

/-
  The clause is written with its text, or without if that is
  missing, in front of another text. Delimiters stand around
  the keyword and in front of the text behind.
-/
structure ClauseText.Stands
    (clause : Clause)
    (found : Option Text)
    (w : ClauseText)
    (t : Text) : Prop where
  spells : Text.Spells clause.keyword.words w.keyword
  gap_isBlank : Text.IsBlank w.gap
  text_eq : w.text = found.getD []
  trailing_isBlank : Text.IsBlank w.trailing
  endsAfter : EndsAfter (w.body ++ t)
  endsBefore : t = [] ∨ EndsBefore w.written.getLast?

namespace Clause

/-
  The text is made of clauses, each of them once and in the
  order given. Only some of them can be missing.
-/
inductive LaidOut
    (stored : Clause → Option Text)
    (skips : Clause → Prop) :
    List Clause → Text → Prop where
  | nil : LaidOut stored skips [] []
  | absent
      {clause : Clause}
      {rest : List Clause}
      {t : Text}
      (hSkips : skips clause)
      (hRest : LaidOut stored skips rest t) :
      LaidOut stored skips (clause :: rest) t
  | present
      {clause : Clause}
      {rest : List Clause}
      {t : Text}
      (w : ClauseText)
      (hStands : w.Stands clause (stored clause) t)
      (hRest : LaidOut stored skips rest t) :
      LaidOut stored skips (clause :: rest) (w.written ++ t)

/-
  The keyword of a later clause, which is there, occurs first
  in the text.
-/
def Displaced
    (stored : Clause → Option Text)
    (t : Text)
    (clause : Clause) : Prop :=
  ∃ other ∈ clause.later,
    stored other ≠ none ∧
      ∃ front front',
        Text.untilKeyword other.keyword t = .ok front ∧
          Text.untilKeyword clause.keyword t = .ok front' ∧
            front.length < front'.length

variable {stored : Clause → Option Text}
variable {skips skips' : Clause → Prop}
variable {clause other : Clause}
variable {clauses rest : List Clause}
variable {t u v done front keyword after : Text}
variable {front' keyword' after' : Text}

theorem LaidOut.mono
    (hLaidOut : LaidOut stored skips clauses t)
    (hSkips : ∀ clause, skips clause → skips' clause) :
    LaidOut stored skips' clauses t := by
  induction hLaidOut with
  | nil => exact .nil
  | absent hSkip _ ih => exact .absent (hSkips _ hSkip) ih
  | present w hStands _ ih => exact .present w hStands ih

------------------------------------------------------------
-- Occurrences of Keywords
------------------------------------------------------------

/- Every clause is one of those in order. -/
theorem mem_inOrder
    (clause : Clause) :
    clause ∈ inOrder :=
  (suffix_inOrder clause).subset List.mem_cons_self

/- A keyword takes room in the text. -/
theorem length_lt_of_occurs
    (hOccurs :
      Text.Occurs clause.keyword.words t front keyword after) :
    front.length < t.length := by
  have hKeyword :=
    List.length_pos_iff.mpr
      (Text.ne_nil_of_spells (isLetters_words clause) hOccurs.spells)
  have hLength := congrArg List.length hOccurs.split
  simp only [List.length_append] at hLength
  omega

/- And so does a clause that begins with it. -/
theorem written_ne_nil
    {w : ClauseText}
    (hSpells : Text.Spells clause.keyword.words w.keyword) :
    w.written ≠ [] :=
  fun hNil =>
    Text.ne_nil_of_spells (isLetters_words clause) hSpells
      (List.append_eq_nil_iff.mp hNil).1

/- No two keywords occur at one place. -/
theorem length_ne_of_ne
    (hNe : clause ≠ other)
    (hOccurs :
      Text.Occurs clause.keyword.words t front keyword after)
    (hOther :
      Text.Occurs other.keyword.words t front' keyword' after') :
    front.length ≠ front'.length := by
  intro hLength
  have hSplit :
      front ++ (keyword ++ after) = front' ++ (keyword' ++ after') :=
    hOccurs.split.symm.trans hOther.split
  have hBehind := (List.append_inj hSplit hLength).2
  have hInitial := initial_of_spells after hOccurs.spells
  rw [hBehind, initial_of_spells after' hOther.spells] at hInitial
  rcases exists_words other with ⟨first, words, hWords, hFirst⟩
  have hMem : first ∈ other.keyword.words := by
    rw [hWords]
    exact List.mem_cons_self
  apply initial_ne_of_ne hNe first hMem
  rw [hFirst, hInitial]

/- A keyword that does not occur before another occurs behind it. -/
theorem length_le_of_ne
    (hNe : clause ≠ other)
    (hOccurs :
      Text.Occurs clause.keyword.words t front keyword after)
    (hOther :
      Text.Occurs other.keyword.words t front' keyword' after')
    (hLe : front.length ≤ front'.length) :
    (front ++ keyword).length ≤ front'.length := by
  refine
    hOccurs.length_le_of_lt (isLetters_words clause)
      (isLetters_words other) hOther ?_
      (lt_of_le_of_ne hLe (length_ne_of_ne hNe hOccurs hOther))
  rw [initial_of_spells after' hOther.spells]
  exact initial_ne_of_mem_tail clause other

/- Through its keyword the text ends with a letter. -/
theorem isAlpha_getLast?_through
    (hOccurs :
      Text.Occurs clause.keyword.words t front keyword after) :
    (front ++ keyword).getLast?.any Char.isAlpha = true := by
  have hLetters := isLetters_words clause
  rw [List.getLast?_append_of_ne_nil _
    (Text.ne_nil_of_spells hLetters hOccurs.spells)]
  exact Text.getLast?_of_spells hLetters hOccurs.spells

/- Every other keyword occurs in front of it or behind. -/
theorem exists_behind_of_ne
    (hNe : clause ≠ other)
    (hOccurs :
      Text.Occurs clause.keyword.words t front keyword after)
    (hOther :
      Text.Occurs other.keyword.words t front' keyword' after')
    (hLe : front.length ≤ front'.length) :
    ∃ between,
      front' = front ++ keyword ++ between ∧
        Text.Occurs other.keyword.words after between keyword'
          after' := by
  have hLength := length_le_of_ne hNe hOccurs hOther hLe
  rw [hOccurs.split, ← List.append_assoc] at hOther
  exact
    hOther.exists_behind
      (hOccurs.balanced_through (isLetters_words clause))
      (isAlpha_getLast?_through hOccurs) hLength

------------------------------------------------------------
-- The Text of a Clause
------------------------------------------------------------

theorem isLetters_of_mem_keywords
    (clauses : List Clause) :
    ∀ k ∈ clauses.map Clause.keyword, ∀ w ∈ k.words, Text.IsLetters w := by
  intro k hMem
  rcases List.mem_map.mp hMem with ⟨clause, -, rfl⟩
  exact isLetters_words clause

/- The text of a clause is read from its first keyword on. -/
theorem exists_until_of_first
    (hBalanced : Text.Balanced t)
    (hFirst :
      Text.First clause.keyword.words t front keyword after) :
    ∃ u,
      Text.Until (clause.later.map Clause.keyword) after u ∧
        clause.text? t = .ok (Text.nonblank? u) :=
  Text.section?_of_first (isLetters_words clause)
    (isLetters_of_mem_keywords clause.later) hBalanced hFirst

theorem text?_of_isFree
    (hBalanced : Text.Balanced t)
    (hFree : Text.IsFree clause.keyword.words t) :
    clause.text? t = .ok none :=
  Text.section?_of_isFree _ hBalanced hFree

/- The texts of clauses that are found. -/
theorem text?_eq_some_iff
    {found : Text}
    (hBalanced : Text.Balanced t) :
    clause.text? t = .ok (some found) ↔
      ∃ front keyword after u,
        Text.First clause.keyword.words t front keyword after ∧
          Text.Until (clause.later.map Clause.keyword) after u ∧
          ¬ Text.IsBlank u ∧ found = Text.trim u :=
  Text.section?_eq_some_iff (isLetters_words clause)
    (isLetters_of_mem_keywords clause.later) hBalanced

/- A clause with a text has a first keyword. -/
theorem exists_first_of_text?
    {found : Text}
    (hBalanced : Text.Balanced t)
    (hText : clause.text? t = .ok (some found)) :
    ∃ front keyword after,
      Text.First clause.keyword.words t front keyword after := by
  rcases (text?_eq_some_iff hBalanced).mp hText
    with ⟨front, keyword, after, -, hFirst, -⟩
  exact ⟨front, keyword, after, hFirst⟩

theorem untilKeyword_of_first
    (hBalanced : Text.Balanced t)
    (hFirst :
      Text.First clause.keyword.words t front keyword after) :
    Text.untilKeyword clause.keyword t = .ok front := by
  rw [Text.untilKeyword, Text.cutAtKeyword_eq hBalanced]
  exact
    congrArg Except.ok
      (hFirst.cutOf (isLetters_words clause) hBalanced).1

/- The text of a clause holds no keyword of a later one. -/
theorem isFree_of_text?
    {found : Text}
    (hBalanced : Text.Balanced t)
    (hText : clause.text? t = .ok (some found))
    (hLater : other ∈ clause.later) :
    Text.Balanced found ∧ Text.IsFree other.keyword.words found := by
  rcases exists_text? clause hBalanced with ⟨part, hPart, hParts⟩
  rw [hText] at hPart
  have hFound := hParts found (Except.ok.inj hPart).symm
  rcases (text?_eq_some_iff hBalanced).mp hText
    with ⟨_, _, _, u, -, hUntil, -, rfl⟩
  refine ⟨hFound, ?_⟩
  have hU := Text.balanced_trim_iff.mp hFound
  exact
    Text.isFree_trim (isLetters_words other) hU
      (hUntil.isFree (isLetters_words other) hU
        (List.mem_map_of_mem hLater))

------------------------------------------------------------
-- Frontiers
------------------------------------------------------------

/-
  Up to here no keyword of the clauses occurs in the text,
  and here is one of them or the end.
-/
structure Frontier
    (t : Text)
    (clauses : List Clause)
    (done rest : Text) : Prop where
  split : t = done ++ rest
  balanced : Text.Balanced done
  least :
    ∀ clause ∈ clauses, ∀ front keyword after,
      Text.Occurs clause.keyword.words t front keyword after →
        done.length ≤ front.length
  reached :
    rest = [] ∨
      ∃ clause ∈ clauses, ∃ keyword after,
        Text.Occurs clause.keyword.words t done keyword after

/- The first frontier is at the first keyword of all. -/
theorem frontier_of_until
    (hBalanced : Text.Balanced t)
    (hUntil : Text.Until (clauses.map Clause.keyword) t done)
    (hSplit : t = done ++ u) :
    Frontier t clauses done u := by
  refine ⟨hSplit, ?_, ?_, ?_⟩
  · rcases hUntil.reached with hAll | ⟨k, -, keyword, after, hOccurs⟩
    · rw [hAll]
      exact hBalanced
    · exact hOccurs.balanced
  · exact fun clause hMem =>
      hUntil.least clause.keyword (List.mem_map_of_mem hMem)
  · rcases hUntil.reached with hAll | ⟨k, hMem, hOccurs⟩
    · rw [hAll] at hSplit
      exact .inl (List.self_eq_append_right.mp hSplit)
    · rcases List.mem_map.mp hMem with ⟨clause, hClause, rfl⟩
      exact .inr ⟨clause, hClause, hOccurs⟩

/- A clause that does not begin here makes no difference. -/
theorem Frontier.of_not_occurs
    (hFrontier : Frontier t (clause :: rest) done u)
    (hNone :
      ∀ keyword after,
        ¬ Text.Occurs clause.keyword.words t done keyword after) :
    Frontier t rest done u := by
  refine ⟨hFrontier.split, hFrontier.balanced, ?_, ?_⟩
  · exact fun next hMem =>
      hFrontier.least next (List.mem_cons_of_mem clause hMem)
  · rcases hFrontier.reached with hEnd | ⟨next, hMem, k, a, hOccurs⟩
    · exact .inl hEnd
    · rcases List.mem_cons.mp hMem with rfl | hMem
      · exact absurd hOccurs (hNone k a)
      · exact .inr ⟨next, hMem, k, a, hOccurs⟩

/- What occurs here occurs here first. -/
theorem Frontier.first
    (hFrontier : Frontier t clauses done u)
    (hMem : clause ∈ clauses)
    (hOccurs :
      Text.Occurs clause.keyword.words t done keyword after) :
    Text.First clause.keyword.words t done keyword after :=
  ⟨hOccurs, hFrontier.least clause hMem⟩

/- The next frontier is at the end of the clause that begins here. -/
theorem Frontier.step
    (hBalanced : Text.Balanced t)
    (hSuffix : clause :: rest <:+ inOrder)
    (hFrontier : Frontier t (clause :: rest) done v)
    (hOccurs :
      Text.Occurs clause.keyword.words t done keyword after) :
    ∃ u v,
      after = u ++ v ∧
        clause.text? t = .ok (Text.nonblank? u) ∧
          Frontier t rest (done ++ keyword ++ u) v := by
  have hLetters := isLetters_words clause
  have hBehind := eq_later_of_suffix hSuffix
  have hAfter := hOccurs.balanced_after hLetters hBalanced
  have hThrough := hOccurs.balanced_through hLetters
  rcases
      exists_until_of_first hBalanced
        (hFrontier.first List.mem_cons_self hOccurs)
    with ⟨u, hUntil, hText⟩
  rw [← hBehind.1] at hUntil
  rcases hUntil.isPrefix with ⟨v, hSplit⟩
  refine ⟨u, v, hSplit.symm, hText, ?_, ?_, ?_, ?_⟩
  · rw [hOccurs.split, ← hSplit]
    simp
  · refine Text.balanced_append hThrough ?_
    rcases hUntil.reached with rfl | ⟨k, -, keyword, after, hNext⟩
    · exact hAfter
    · exact hNext.balanced
  · intro next hMem front' keyword' after' hOther
    have hNe : clause ≠ next := by
      rintro rfl
      exact hBehind.2 hMem
    have hLe :=
      hFrontier.least next (List.mem_cons_of_mem clause hMem) _ _ _
        hOther
    rcases exists_behind_of_ne hNe hOccurs hOther hLe
      with ⟨between, rfl, hNext⟩
    have hLeast :=
      hUntil.least _ (List.mem_map_of_mem hMem) _ _ _ hNext
    simp only [List.length_append]
    omega
  · rcases hUntil.reached with hAll | ⟨k, hMem, keyword', after', hNext⟩
    · rw [hAll] at hSplit
      exact .inl (List.self_eq_append_right.mp hSplit.symm)
    · rcases List.mem_map.mp hMem with ⟨next, hNextMem, rfl⟩
      have hWhole :=
        hNext.append_left (isLetters_words next) hThrough
          hOccurs.endsAfter
      rw [List.append_assoc done, ← hOccurs.split] at hWhole
      exact .inr ⟨next, hNextMem, keyword', after', hWhole⟩

/- A keyword of none of the clauses does not occur here. -/
theorem Frontier.length_ne
    (hFrontier : Frontier t clauses done u)
    (hNot : other ∉ clauses)
    (hOther :
      Text.Occurs other.keyword.words t front' keyword' after') :
    done.length ≠ front'.length := by
  rcases hFrontier.reached with hEnd | ⟨next, hMem, k, a, hOccurs⟩
  · have hLt := length_lt_of_occurs hOther
    rw [hFrontier.split, hEnd, List.append_nil] at hLt
    exact hLt.ne'
  · have hNe : next ≠ other := by
      rintro rfl
      exact hNot hMem
    exact length_ne_of_ne hNe hOccurs hOther

/- Nor does it occur in the blanks behind another. -/
theorem length_le_of_blank_behind
    (hNe : clause ≠ other)
    (hOccurs :
      Text.Occurs clause.keyword.words t done keyword (u ++ v))
    (hBlank : Text.IsBlank u)
    (hOther :
      Text.Occurs other.keyword.words t front' keyword' after')
    (hLe : done.length ≤ front'.length) :
    (done ++ keyword ++ u).length ≤ front'.length := by
  rcases exists_behind_of_ne hNe hOccurs hOther hLe
    with ⟨between, rfl, hBetween⟩
  have hBlanks :=
    hBetween.length_le_of_isBlank (isLetters_words other) hBlank
  simp only [List.length_append]
  omega

/-
  A keyword that occurs behind a frontier occurs behind a
  clause that is there, by induction on the clauses that can
  begin at the frontier: one without a text is followed by
  the next.
-/
theorem Frontier.exists_before
    (hBalanced : Text.Balanced t)
    (hStored : ∀ clause : Clause, clause.text? t = .ok (stored clause))
    (hSuffix : clauses <:+ inOrder)
    (hFrontier : Frontier t clauses done u)
    (hNot : other ∉ clauses)
    (hOther :
      Text.Occurs other.keyword.words t front' keyword' after')
    (hLt : done.length < front'.length) :
    ∃ clause ∈ clauses,
      stored clause ≠ none ∧
        ∃ front keyword after,
          Text.First clause.keyword.words t front keyword after ∧
            front.length < front'.length := by
  induction clauses generalizing done u with
  | nil =>
      rcases hFrontier.reached with hEnd | ⟨_, hMem, -⟩
      · have hEarlier := length_lt_of_occurs hOther
        rw [hFrontier.split, hEnd, List.append_nil] at hEarlier
        exact absurd hEarlier hLt.not_gt
      · exact absurd hMem List.not_mem_nil
  | cons clause rest ih =>
      have hRest := (List.suffix_cons clause rest).trans hSuffix
      have hNotRest : other ∉ rest :=
        fun h => hNot (List.mem_cons_of_mem clause h)
      by_cases hHere :
          ∃ keyword after,
            Text.Occurs clause.keyword.words t done keyword after
      · rcases hHere with ⟨keyword, after, hOccurs⟩
        by_cases hNone : stored clause = none
        · rcases hFrontier.step hBalanced hSuffix hOccurs
            with ⟨u, v, hAfter, hText, hNext⟩
          have hNe : clause ≠ other := by
            rintro rfl
            exact hNot List.mem_cons_self
          -- Only blanks stand in front of the next frontier.
          have hBlank : Text.IsBlank u := by
            rw [hStored clause, hNone, Text.nonblank?] at hText
            by_contra hNotBlank
            rw [if_neg hNotBlank] at hText
            exact absurd hText (by simp)
          rw [hAfter] at hOccurs
          have hPast :=
            length_le_of_blank_behind hNe hOccurs hBlank hOther hLt.le
          have hApart := hNext.length_ne hNotRest hOther
          rcases
              ih hRest hNext hNotRest (lt_of_le_of_ne hPast hApart)
            with ⟨found, hMem, hFound⟩
          exact ⟨found, List.mem_cons_of_mem clause hMem, hFound⟩
        · exact
            ⟨clause, List.mem_cons_self, hNone, done, keyword, after,
              hFrontier.first List.mem_cons_self hOccurs, hLt⟩
      · have hSame :=
          hFrontier.of_not_occurs fun k a h => hHere ⟨k, a, h⟩
        rcases ih hRest hSame hNotRest hLt with ⟨found, hMem, hFound⟩
        exact ⟨found, List.mem_cons_of_mem clause hMem, hFound⟩

/- A clause that has a text and does not begin here is displaced. -/
theorem Frontier.displaced
    {found : Text}
    (hBalanced : Text.Balanced t)
    (hStored : ∀ clause : Clause, clause.text? t = .ok (stored clause))
    (hSuffix : clause :: rest <:+ inOrder)
    (hFrontier : Frontier t (clause :: rest) done u)
    (hNone :
      ∀ keyword after,
        ¬ Text.Occurs clause.keyword.words t done keyword after)
    (hFound : stored clause = some found) :
    Displaced stored t clause := by
  have hText := hStored clause
  rw [hFound] at hText
  rcases exists_first_of_text? hBalanced hText
    with ⟨front, keyword, after, hFirst⟩
  have hLe :=
    hFrontier.least clause List.mem_cons_self _ _ _ hFirst.occurs
  have hNe : done.length ≠ front.length := by
    intro hLength
    have hSplit := hFrontier.split
    rw [hFirst.occurs.split] at hSplit
    have hFront := (List.append_inj hSplit hLength.symm).1
    exact hNone keyword after (hFront ▸ hFirst.occurs)
  have hBehind := eq_later_of_suffix hSuffix
  rcases
      (hFrontier.of_not_occurs hNone).exists_before hBalanced hStored
        ((List.suffix_cons clause rest).trans hSuffix) hBehind.2
        hFirst.occurs (lt_of_le_of_ne hLe hNe)
    with ⟨other, hMem, hOther, f, k, a, hOtherFirst, hLt⟩
  rw [hBehind.1] at hMem
  exact
    ⟨other, hMem, hOther, f, front,
      untilKeyword_of_first hBalanced hOtherFirst,
      untilKeyword_of_first hBalanced hFirst, hLt⟩

/- A text between keywords with the blanks around it. -/
theorem exists_body
    (keyword u : Text) :
    ∃ w : ClauseText,
      w.keyword = keyword ∧ w.body = u ∧
        w.text = (Text.nonblank? u).getD [] ∧
          Text.IsBlank w.gap ∧ Text.IsBlank w.trailing := by
  by_cases hBlank : Text.IsBlank u
  · refine ⟨⟨keyword, u, [], []⟩, rfl, List.append_nil u, ?_, hBlank, rfl⟩
    rw [Text.nonblank?, if_pos hBlank]
    rfl
  · rcases Text.exists_blanks_trim u with ⟨b, b', hGap, hTrailing, hText⟩
    refine
      ⟨⟨keyword, b, Text.trim u, b'⟩, rfl, ?_, ?_, hGap, hTrailing⟩
    · rw [ClauseText.body, ← List.append_assoc, ← hText]
    · rw [Text.nonblank?, if_neg hBlank]
      rfl

/-
  What is behind a frontier is laid out, by induction on the
  clauses that can begin there.
-/
theorem Frontier.laidOut
    (hBalanced : Text.Balanced t)
    (hStored : ∀ clause : Clause, clause.text? t = .ok (stored clause))
    (hSuffix : clauses <:+ inOrder)
    (hFrontier : Frontier t clauses done u) :
    LaidOut stored
      (fun clause => stored clause = none ∨ Displaced stored t clause)
      clauses u := by
  induction clauses generalizing done u with
  | nil =>
      rcases hFrontier.reached with rfl | ⟨_, hMem, -⟩
      · exact .nil
      · exact absurd hMem List.not_mem_nil
  | cons clause rest ih =>
      have hRest := (List.suffix_cons clause rest).trans hSuffix
      by_cases hHere :
          ∃ keyword after,
            Text.Occurs clause.keyword.words t done keyword after
      · rcases hHere with ⟨keyword, after, hOccurs⟩
        rcases hFrontier.step hBalanced hSuffix hOccurs
          with ⟨v, v', hAfter, hText, hNext⟩
        rcases exists_body keyword v
          with ⟨w, rfl, rfl, hFound, hGap, hTrailing⟩
        have hU : u = w.written ++ v' := by
          have hSplit := hFrontier.split
          rw [hOccurs.split, hAfter] at hSplit
          rw [← List.append_cancel_left hSplit, ClauseText.written,
            List.append_assoc]
        rw [hU]
        refine .present w ⟨hOccurs.spells, hGap, ?_, hTrailing, ?_, ?_⟩
            (ih hRest hNext)
        · rw [hStored clause] at hText
          rw [hFound, Except.ok.inj hText]
        · rw [← hAfter]
          exact hOccurs.endsAfter
        · rcases hNext.reached with hEnd | ⟨next, -, k, a, hNextOccurs⟩
          · exact .inl hEnd
          · have hBefore := hNextOccurs.endsBefore
            rw [List.append_assoc, ← ClauseText.written,
              List.getLast?_append_of_ne_nil done
                (written_ne_nil hOccurs.spells)] at hBefore
            exact .inr hBefore
      · have hNone (keyword after : Text) :
            ¬ Text.Occurs clause.keyword.words t done keyword after :=
          fun hOccurs => hHere ⟨keyword, after, hOccurs⟩
        refine .absent ?_ (ih hRest (hFrontier.of_not_occurs hNone))
        cases hFound : stored clause with
        | none => exact .inl rfl
        | some found =>
            exact
              .inr
                (hFrontier.displaced hBalanced hStored hSuffix hNone
                  hFound)

------------------------------------------------------------
-- Clauses in Their Places
------------------------------------------------------------

/- A text that is laid out begins with a keyword, or is empty. -/
theorem LaidOut.starts
    (hLaidOut : LaidOut stored skips clauses u) :
    u = [] ∨
      ∃ clause ∈ clauses, ∃ keyword after,
        u = keyword ++ after ∧
          Text.Spells clause.keyword.words keyword ∧
            EndsAfter after := by
  induction hLaidOut with
  | nil => exact .inl rfl
  | absent hSkip _ ih =>
      rcases ih with hEnd | ⟨clause, hMem, hStarts⟩
      · exact .inl hEnd
      · exact .inr ⟨clause, List.mem_cons_of_mem _ hMem, hStarts⟩
  | @present clause rest v w hStands _ _ =>
      exact
        .inr
          ⟨clause, List.mem_cons_self, w.keyword, w.body ++ v,
            List.append_assoc .., hStands.spells, hStands.endsAfter⟩

/- Delimiters stand in front of a clause at its place. -/
theorem endsBefore_of_stands
    {w : ClauseText}
    {found : Option Text}
    (hStands : w.Stands clause found v)
    (hBefore : w.written ++ v = [] ∨ EndsBefore done.getLast?) :
    EndsBefore done.getLast? :=
  hBefore.resolve_left fun hNil =>
    written_ne_nil hStands.spells (List.append_eq_nil_iff.mp hNil).1

/- And in front of what is behind it. -/
theorem endsBefore_behind_stands
    {w : ClauseText}
    {found : Option Text}
    (hStands : w.Stands clause found v)
    (done : Text) :
    v = [] ∨ EndsBefore (done ++ w.written).getLast? := by
  rw [List.getLast?_append_of_ne_nil _ (written_ne_nil hStands.spells)]
  exact hStands.endsBefore

/- A clause that stands at its place occurs there. -/
theorem occurs_of_stands
    {w : ClauseText}
    {found : Option Text}
    (hDone : Text.Balanced done)
    (hBefore : EndsBefore done.getLast?)
    (hStands : w.Stands clause found v) :
    Text.Occurs clause.keyword.words (done ++ (w.written ++ v)) done
      w.keyword (w.body ++ v) :=
  ⟨congrArg _ (List.append_assoc ..), hDone, hBefore, hStands.spells,
    hStands.endsAfter⟩

/- Behind the body of a clause the next keyword occurs, if any. -/
theorem exists_occurs_behind
    {w : ClauseText}
    {found : Option Text}
    (hStands : w.Stands clause found v)
    (hLaidOut : LaidOut stored skips clauses v)
    (hBody : Text.Balanced w.body) :
    v = [] ∨
      ∃ next ∈ clauses, ∃ keyword after,
        Text.Occurs next.keyword.words (w.body ++ v) w.body keyword
          after := by
  rcases hLaidOut.starts with hEnd | ⟨next, hMem, k, a, rfl, hSpells, hEnds⟩
  · exact .inl hEnd
  · refine
      .inr ⟨next, hMem, k, a, rfl, hBody, ?_, hSpells, hEnds⟩
    have hKeyword : k ≠ [] :=
      Text.ne_nil_of_spells (isLetters_words next) hSpells
    by_cases hNil : w.body = []
    · rw [hNil]
      exact Text.endsBefore_of_isBlank Text.isBlank_nil
    · rcases hStands.endsBefore with hEnd | hLast
      · exact absurd (List.append_eq_nil_iff.mp hEnd).1 hKeyword
      · rw [ClauseText.written,
          List.getLast?_append_of_ne_nil _ hNil] at hLast
        exact hLast

/-
  A keyword that occurs behind the start of a clause, and not
  in the body of it, occurs behind the end of the clause.
-/
theorem length_le_of_stands
    {w : ClauseText}
    {found : Option Text}
    (hDone : Text.Balanced done)
    (hBefore : EndsBefore done.getLast?)
    (hStands : w.Stands clause found v)
    (hLaidOut : LaidOut stored skips clauses v)
    (hBody : Text.Balanced w.body)
    (hNe : clause ≠ other)
    (hFree : Text.IsFree other.keyword.words w.body)
    (hOther :
      Text.Occurs other.keyword.words (done ++ (w.written ++ v)) front'
        keyword' after')
    (hLe : done.length ≤ front'.length) :
    (done ++ w.written).length ≤ front'.length := by
  have hOccurs := occurs_of_stands hDone hBefore hStands
  have hLetters := isLetters_words other
  rcases exists_behind_of_ne hNe hOccurs hOther hLe
    with ⟨between, hFront', hBetween⟩
  have hLong : w.body.length ≤ between.length := by
    by_contra hShort
    rw [Nat.not_le] at hShort
    -- The occurrence ends in the body, where there is none.
    have hInside : (between ++ keyword').length ≤ w.body.length := by
      rcases exists_occurs_behind hStands hLaidOut hBody
        with rfl | ⟨next, -, k, a, hNext⟩
      · have hLength := congrArg List.length hBetween.split
        rw [List.append_nil] at hLength
        simp only [List.length_append] at hLength ⊢
        omega
      · refine
          hBetween.length_le_of_lt hLetters (isLetters_words next) hNext
            ?_ hShort
        rw [initial_of_spells a hNext.spells]
        exact initial_ne_of_mem_tail other next
    rcases hBetween.exists_restrict hInside with ⟨x, hRestricted⟩
    exact (Text.isFree_iff hLetters hBody).mp hFree _ _ _ hRestricted
  rw [hFront', ClauseText.written]
  simp only [List.length_append]
  omega

/- The body of a clause holds no keyword that is not in the text. -/
theorem isFree_body_of_stands
    {w : ClauseText}
    {found : Option Text}
    (hStands : w.Stands clause found v)
    (hText :
      ∀ text, found = some text →
        Text.Balanced text ∧ Text.IsFree other.keyword.words text) :
    Text.Balanced w.body ∧ Text.IsFree other.keyword.words w.body := by
  have hFound :
      Text.Balanced w.text ∧ Text.IsFree other.keyword.words w.text := by
    rw [hStands.text_eq]
    cases found with
    | none => exact ⟨rfl, Text.isFree_nil _⟩
    | some text => exact hText text rfl
  constructor
  · exact
      Text.balanced_append
        (Text.balanced_of_isBlank hStands.gap_isBlank)
        (Text.balanced_append hFound.1
          (Text.balanced_of_isBlank hStands.trailing_isBlank))
  · exact
      Text.isFree_surround (isLetters_words other) hStands.gap_isBlank
        hStands.trailing_isBlank hFound.1 hFound.2

------------------------------------------------------------
-- Along a Layout
------------------------------------------------------------

/-
  What is done of a text that is laid out is made of whole
  clauses, and none of those pending occurs in it.
-/
structure Passed
    (t : Text)
    (pending : Clause → Prop)
    (done rest : Text) : Prop where
  split : t = done ++ rest
  balanced : Text.Balanced done
  endsBefore : rest = [] ∨ EndsBefore done.getLast?
  least :
    ∀ clause, pending clause → ∀ front keyword after,
      Text.Occurs clause.keyword.words t front keyword after →
        done.length ≤ front.length

section Passed

variable {pending pending' : Clause → Prop}
variable {found : Option Text}
variable {w : ClauseText}

/- Blanks in front of a text that is laid out are passed. -/
theorem passed_of_isBlank
    (hSplit : t = done ++ u)
    (hBlank : Text.IsBlank done) :
    Passed t pending done u := by
  refine
    ⟨hSplit, Text.balanced_of_isBlank hBlank,
      .inr (Text.endsBefore_of_isBlank hBlank), ?_⟩
  intro clause _ front keyword after hOccurs
  rw [hSplit] at hOccurs
  exact hOccurs.length_le_of_isBlank (isLetters_words clause) hBlank

theorem Passed.mono
    (hPassed : Passed t pending done u)
    (hLess : ∀ clause, pending' clause → pending clause) :
    Passed t pending' done u :=
  { hPassed with
    least := fun clause h => hPassed.least clause (hLess clause h) }

/- A clause that stands here occurs here first. -/
theorem Passed.first
    (hPassed : Passed t pending done (w.written ++ v))
    (hStands : w.Stands clause found v)
    (hClause : pending clause) :
    Text.First clause.keyword.words t done w.keyword (w.body ++ v) := by
  have hOccurs :=
    occurs_of_stands hPassed.balanced
      (endsBefore_of_stands hStands hPassed.endsBefore) hStands
  rw [← hPassed.split] at hOccurs
  exact ⟨hOccurs, hPassed.least clause hClause⟩

/-
  A clause that stands here is passed, if those pending behind
  it are others and do not occur in the body of it.
-/
theorem Passed.step
    (hPassed : Passed t pending done (w.written ++ v))
    (hStands : w.Stands clause found v)
    (hRest : LaidOut stored skips rest v)
    (hBody : Text.Balanced w.body)
    (hOthers :
      ∀ other, pending' other →
        pending other ∧ clause ≠ other ∧
          Text.IsFree other.keyword.words w.body) :
    Passed t pending' (done ++ w.written) v where
  split := by rw [hPassed.split, List.append_assoc]
  balanced :=
    Text.balanced_append hPassed.balanced
      (Text.balanced_append
        (Text.balanced_of_plain
          (Text.plain_of_spells (isLetters_words clause) hStands.spells))
        hBody)
  endsBefore := endsBefore_behind_stands hStands done
  least := by
    intro other hOther front keyword after hOccurs
    rcases hOthers other hOther with ⟨hPending, hNe, hFree⟩
    have hLe := hPassed.least other hPending _ _ _ hOccurs
    rw [hPassed.split] at hOccurs
    exact
      length_le_of_stands hPassed.balanced
        (endsBefore_of_stands hStands hPassed.endsBefore) hStands hRest
        hBody hNe hFree hOccurs hLe

end Passed

/- A clause in front of all later ones is not displaced. -/
theorem not_displaced_of_first
    (hBalanced : Text.Balanced t)
    (hFirst : Text.First clause.keyword.words t done keyword after)
    (hLeast :
      ∀ other ∈ clause.later, ∀ front keyword after,
        Text.Occurs other.keyword.words t front keyword after →
          done.length ≤ front.length) :
    ¬ Displaced stored t clause := by
  rintro ⟨other, hLater, -, front, front', hFront, hFront', hLt⟩
  rw [untilKeyword_of_first hBalanced hFirst] at hFront'
  cases hFront'
  rcases Text.exists_untilKeyword_eq (isLetters_words other) hBalanced
    with ⟨u, hRead, hUntil⟩
  rw [hFront] at hRead
  cases hRead
  rcases hUntil.reached with rfl | ⟨k, hMem, keyword, after, hOther⟩
  · exact absurd hLt (length_lt_of_occurs hFirst.occurs).not_gt
  · cases List.mem_singleton.mp hMem
    exact absurd hLt (hLeast other hLater _ _ _ hOther).not_gt

/-
  In a text that is laid out without skipping a clause that
  has a text, no clause is displaced, by induction on the
  clauses: behind each of them no later one has occurred.
-/
theorem LaidOut.not_displaced
    (hBalanced : Text.Balanced t)
    (hStored : ∀ clause : Clause, clause.text? t = .ok (stored clause))
    (hSuffix : clauses <:+ inOrder)
    (hLaidOut :
      LaidOut stored (fun clause => stored clause = none) clauses u)
    (hPassed : Passed t (fun clause => clause ∈ clauses) done u) :
    ∀ clause ∈ clauses,
      stored clause ≠ none → ¬ Displaced stored t clause := by
  induction hLaidOut generalizing done with
  | nil => exact fun _ hMem => absurd hMem List.not_mem_nil
  | @absent clause rest v hSkip _ ih =>
      intro other hMem hSome
      rcases List.mem_cons.mp hMem with rfl | hMem
      · exact absurd hSkip hSome
      · exact
          ih ((List.suffix_cons _ _).trans hSuffix)
            (hPassed.mono fun _ => List.mem_cons_of_mem clause) other hMem
            hSome
  | @present clause rest v w hStands hRest ih =>
      have hBehind := eq_later_of_suffix hSuffix
      -- The text of the clause is free of what comes later.
      have hBody : ∀ next ∈ rest,
          Text.Balanced w.body ∧
            Text.IsFree next.keyword.words w.body := by
        intro next hMem
        refine isFree_body_of_stands hStands fun text hSome => ?_
        have hRead := hStored clause
        rw [hSome] at hRead
        rw [hBehind.1] at hMem
        exact isFree_of_text? hBalanced hRead hMem
      intro other hMem hSome
      rcases List.mem_cons.mp hMem with rfl | hMem
      · refine
          not_displaced_of_first hBalanced
            (hPassed.first hStands List.mem_cons_self) fun next hLater => ?_
        rw [← hBehind.1] at hLater
        exact hPassed.least next (List.mem_cons_of_mem _ hLater)
      · refine
          ih ((List.suffix_cons _ _).trans hSuffix)
            (hPassed.step hStands hRest (hBody other hMem).1 ?_) other hMem
            hSome
        intro next hNext
        refine ⟨List.mem_cons_of_mem _ hNext, ?_, (hBody next hNext).2⟩
        rintro rfl
        exact hBehind.2 hNext

/-
  With nothing but blanks in front of a text that is laid out,
  nothing but blanks are in front of the first keyword.
-/
theorem LaidOut.isBlank_of_until
    (hUntil : Text.Until (inOrder.map Clause.keyword) t done)
    (hLaidOut : LaidOut stored skips inOrder u)
    (hSplit : t = v ++ u)
    (hBlank : Text.IsBlank v) :
    Text.IsBlank done := by
  have hPrefix : done <+: v := by
    rcases hLaidOut.starts with
      hEnd | ⟨clause, hMem, keyword, after, hStarts, hSpells, hAfter⟩
    · rw [hSplit, hEnd, List.append_nil] at hUntil
      exact hUntil.isPrefix
    · have hOccurs : Text.Occurs clause.keyword.words t v keyword after :=
        ⟨hSplit.trans (congrArg _ hStarts),
          Text.balanced_of_isBlank hBlank,
          Text.endsBefore_of_isBlank hBlank, hSpells, hAfter⟩
      have hLe :=
        hUntil.least _ (List.mem_map_of_mem hMem) _ _ _ hOccurs
      exact
        List.prefix_of_prefix_length_le hUntil.isPrefix
          ⟨u, hSplit.symm⟩ hLe
  rcases hPrefix with ⟨x, rfl⟩
  exact (Text.isBlank_append.mp hBlank).1

end Clause

------------------------------------------------------------
-- Queries
------------------------------------------------------------

namespace Query

variable {t : Text}
variable {schema : Schema}
variable {q resolved : Query}

/- The texts of the clauses that a query keeps. -/
def stored
    (q : Query) : Clause → Option Text
  | .select => q.resolution.map fun r => r.clauses.select
  | .table => some q.tableText
  | .filter => q.resolution.bind fun r => r.clauses.filter
  | .grouping => q.resolution.bind fun r => r.clauses.grouping
  | .groupFilter => q.resolution.bind fun r => r.clauses.groupFilter
  | .order => q.resolution.bind fun r => r.clauses.order
  | .limit => q.resolution.bind fun r => r.clauses.limit

theorem text?_of_text
    {clause : Clause}
    {found : Text}
    (hText : clause.text t = .ok found) :
    clause.text? t = .ok (some found) := by
  rcases bind_eq_ok_iff.mp hText with ⟨found?, hRead, hSome⟩
  split at hSome
  · cases hSome
    exact hRead
  · exact absurd hSome (by simp)

/- A resolution keeps the texts of the clauses. -/
theorem clauses_of_ofClauses
    {table : Table}
    {clauses : Clauses}
    {r : Resolution}
    (hRead : Resolution.ofClauses schema table clauses = .ok r) :
    r.clauses = clauses := by
  rcases bind_eq_ok_iff.mp hRead with ⟨select, -, hRest⟩
  rcases bind_eq_ok_iff.mp hRest with ⟨filter, -, hRest⟩
  rcases bind_eq_ok_iff.mp hRest with ⟨grouping, -, hRest⟩
  rcases bind_eq_ok_iff.mp hRest with ⟨groupFilter, -, hRest⟩
  rcases bind_eq_ok_iff.mp hRest with ⟨order, -, hRest⟩
  rcases bind_eq_ok_iff.mp hRest with ⟨limit, -, hEq⟩
  cases hEq
  rfl

/- A resolved query keeps the texts that its text has. -/
theorem text?_eq_stored
    (hRead : Query.ofText t = .ok q)
    (hResolve : q.resolve schema = .ok resolved)
    (clause : Clause) :
    clause.text? t = .ok (resolved.stored clause) := by
  rcases bind_eq_ok_iff.mp hRead with ⟨tableText, hTable, hRest⟩
  rcases bind_eq_ok_iff.mp hRest with ⟨table, -, hEq⟩
  cases hEq
  rcases exists_ofClauses_of_resolve hResolve with
    ⟨clauses, r, hClauses, hResolution, rfl⟩
  have hKept := clauses_of_ofClauses hResolution
  rcases r with ⟨kept, _, _, _, _, _, _⟩
  rcases bind_eq_ok_iff.mp hClauses with ⟨select, hSelect, hRest⟩
  rcases bind_eq_ok_iff.mp hRest with ⟨filter, hFilter, hRest⟩
  rcases bind_eq_ok_iff.mp hRest with ⟨grouping, hGrouping, hRest⟩
  rcases bind_eq_ok_iff.mp hRest with ⟨groupFilter, hGroupFilter, hRest⟩
  rcases bind_eq_ok_iff.mp hRest with ⟨order, hOrder, hRest⟩
  rcases bind_eq_ok_iff.mp hRest with ⟨limit, hLimit, hEq⟩
  cases hEq
  cases hKept
  cases clause with
  | select => exact text?_of_text hSelect
  | table => exact text?_of_text hTable
  | filter => exact hFilter
  | grouping => exact hGrouping
  | groupFilter => exact hGroupFilter
  | order => exact hOrder
  | limit => exact hLimit

/-
  A query that is resolved is made of what is dropped and of
  its clauses, one behind the other and each with its text. A
  clause is missing only if it has no text or is displaced.
  Nothing but blanks and clauses are there, none with a text
  missing, exactly if nothing but blanks is dropped and no
  clause with a text is displaced.
-/
theorem laidOut_of_resolve
    (hRead : Query.ofText t = .ok q)
    (hResolve : q.resolve schema = .ok resolved) :
    ∃ dropped rest,
      t = dropped ++ rest ∧
        (∀ clause : Clause,
          Text.firstKeyword clause.keyword dropped = .ok none) ∧
        Clause.LaidOut resolved.stored
          (fun clause =>
            resolved.stored clause = none ∨
              Clause.Displaced resolved.stored t clause)
          Clause.inOrder rest ∧
        ((∃ lead laid,
            t = lead ++ laid ∧ Text.IsBlank lead ∧
              Clause.LaidOut resolved.stored
                (fun clause => resolved.stored clause = none)
                Clause.inOrder laid) ↔
          Text.IsBlank dropped ∧
            ∀ clause, resolved.stored clause ≠ none →
              ¬ Clause.Displaced resolved.stored t clause) := by
  have hStored := text?_eq_stored hRead hResolve
  have hBalanced : Text.Balanced t := by
    have hWhole := balanced_of_ofText hRead
    rcases bind_eq_ok_iff.mp hRead with ⟨tableText, -, hRest⟩
    rcases bind_eq_ok_iff.mp hRest with ⟨table, -, hEq⟩
    cases hEq
    exact hWhole
  rcases
      Text.exists_untilKeywords_eq
        (Clause.isLetters_of_mem_keywords Clause.inOrder) hBalanced
    with ⟨dropped, -, hUntil⟩
  rcases hUntil.isPrefix with ⟨rest, hSplit⟩
  have hFrontier := Clause.frontier_of_until hBalanced hUntil hSplit.symm
  have hLaidOut :=
    hFrontier.laidOut hBalanced hStored (List.suffix_refl _)
  refine ⟨dropped, rest, hSplit.symm, ?_, hLaidOut, ?_, ?_⟩
  · intro clause
    have hLetters := Clause.isLetters_words clause
    have hFree :=
      hUntil.isFree hLetters hFrontier.balanced
        (List.mem_map_of_mem (Clause.mem_inOrder clause))
    exact (Text.firstKeyword_eq_none_iff hFrontier.balanced).mpr hFree
  · rintro ⟨lead, laid, hLead, hBlank, hExact⟩
    refine
      ⟨hExact.isBlank_of_until hUntil hLead hBlank,
        fun clause hSome => ?_⟩
    exact
      hExact.not_displaced hBalanced hStored (List.suffix_refl _)
        (Clause.passed_of_isBlank hLead hBlank) clause
        (Clause.mem_inOrder clause) hSome
  · rintro ⟨hBlank, hOrdered⟩
    refine ⟨dropped, rest, hSplit.symm, hBlank, hLaidOut.mono ?_⟩
    rintro clause (hNone | hDisplaced)
    · exact hNone
    · by_contra hSome
      exact hOrdered clause hSome hDisplaced

/- A query with a word in front of its first keyword. -/
def explained : Query :=
  ⟨"EXPLAIN SELECT A FROM S".toList, "S".toList,
    ⟨none, "S".toList, none⟩, none⟩

theorem ofText_explained :
    ofText explained.text = .ok explained := by
  decide +kernel

theorem exists_resolve_explained :
    ∃ resolved,
      explained.resolve ⟨[⟨"A".toList, .ofCategory .string⟩]⟩ =
          .ok resolved ∧
        resolved.stored .select = some "A".toList := by
  have hSelect :
      (explained.resolve
          ⟨[⟨"A".toList, .ofCategory .string⟩]⟩).map
        (fun resolved => resolved.stored .select) =
      .ok (some "A".toList) := by
    decide +kernel
  exact map_eq_ok_iff.mp hSelect

/- The word is not a clause, and is dropped. -/
theorem laidOut_of_resolve_explained :
    ∃ resolved dropped rest,
      explained.resolve ⟨[⟨"A".toList, .ofCategory .string⟩]⟩ =
          .ok resolved ∧
        explained.text = dropped ++ rest ∧
        (∀ clause : Clause,
          Text.firstKeyword clause.keyword dropped = .ok none) ∧
        Clause.LaidOut resolved.stored
          (fun clause =>
            resolved.stored clause = none ∨
              Clause.Displaced resolved.stored explained.text clause)
          Clause.inOrder rest := by
  rcases exists_resolve_explained with ⟨resolved, hResolve, -⟩
  rcases laidOut_of_resolve ofText_explained hResolve
    with ⟨dropped, rest, hSplit, hFree, hLaidOut, -⟩
  exact ⟨resolved, dropped, rest, hResolve, hSplit, hFree, hLaidOut⟩

/- Not every query is made of its clauses alone. -/
theorem not_forall_laidOut :
    ¬ ∀ t schema q resolved,
      ofText t = .ok q →
        q.resolve schema = .ok resolved →
          ∃ lead laid,
            t = lead ++ laid ∧ Text.IsBlank lead ∧
              Clause.LaidOut resolved.stored
                (fun clause => resolved.stored clause = none)
                Clause.inOrder laid := by
  intro hAll
  rcases exists_resolve_explained with ⟨resolved, hResolve, hSelect⟩
  rcases hAll _ _ _ _ ofText_explained hResolve
    with ⟨lead, laid, hSplit, hBlank, hLaidOut⟩
  cases hLaidOut with
  | absent hSkips hRest =>
      rw [hSelect] at hSkips
      exact absurd hSkips (by simp)
  | @present _ _ rest w hStands hRest =>
      -- The first letter is that of the keyword, and it is not.
      cases lead with
      | cons c lead =>
          have hFirst : 'E' = c := (List.cons.inj hSplit).1
          rw [← hFirst] at hBlank
          exact absurd (Text.isBlank_cons.mp hBlank).1 (by decide)
      | nil =>
          have hInitial :=
            Clause.initial_of_spells (w.body ++ rest) hStands.spells
          rw [← List.append_assoc] at hInitial
          have hText : explained.text = w.written ++ rest := hSplit
          rw [ClauseText.written] at hText
          rw [← hText] at hInitial
          exact absurd hInitial (by decide)

end Query

end SqlSelect
