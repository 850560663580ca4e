import SqlSelect.Item.Reading
import SqlSelect.Proofs.Cursor.Walk
import SqlSelect.Proofs.Nesting.Composition
import SqlSelect.Proofs.Recall.Shapes

/-
  The sections of a case. Each of them is read by a search of
  its own, for the first occurrence of the keyword that opens
  it and from there for the first of the one that closes it.

  Main statements:
    * `Cursor.exists_occurs_of_afterKeyword?`
    * `Item.requireEnd_eq_ok_iff`
    * `Item.requireSection_eq_ok_iff`
-/

namespace SqlSelect

------------------------------------------------------------
-- Reading up to One Keyword
------------------------------------------------------------

namespace Text

variable {words : List Text}
variable {word t u v front keyword after : Text}

/- Reading up to a keyword ends at its first occurrence. -/
theorem First.until
    (hWord : word.words = [word])
    (hFirst : First [word] t front keyword after) :
    Until [word] t front where
  isPrefix := ⟨_, hFirst.occurs.split.symm⟩
  least k hMem front' keyword' after' hOccurs := by
    rw [List.mem_singleton.mp hMem, hWord] at hOccurs
    exact hFirst.least _ _ _ hOccurs
  reached := by
    refine .inr ⟨word, List.mem_singleton_self word, keyword, after, ?_⟩
    rw [hWord]
    exact hFirst.occurs

/-
  What is read up to a keyword that occurs first behind the
  start is all the text in front of it.
-/
theorem First.of_until
    {word' front' keyword' after' : Text}
    (hLetters : IsLetters word)
    (hLetters' : IsLetters word')
    (hWord' : word'.words = [word'])
    (hFirst : First [word] t front keyword after)
    (hUntil : Until [word'] after u)
    (hNext : First [word'] t front' keyword' after')
    (hLt : front.length < front'.length) :
    front' = front ++ (keyword ++ u) ∧
      First [word'] after u keyword' after' := by
  rcases hNext.exists_between hLetters hLetters' hFirst.occurs hLt
    with ⟨v, hFront, hBehind⟩
  rw [hUntil.unique (hBehind.until hWord')]
  exact ⟨hFront, hBehind⟩

/- A text that a keyword is searched in is balanced. -/
theorem balanced_of_cutAtKeyword
    {keyword : Text}
    {cut : Cut}
    (hCut : cutAtKeyword keyword t = .ok cut) :
    Balanced t := by
  by_contra hNot
  rw [cutAtKeyword, marked_eq, if_neg hNot] at hCut
  cases hCut

end Text

------------------------------------------------------------
-- Keywords in Front
------------------------------------------------------------

namespace Cursor

variable {word t lead keyword rest : Text}

/- A keyword that a cursor moves over occurs behind blanks. -/
theorem exists_occurs_of_afterKeyword?
    {after : Cursor}
    (hLetters : Text.IsLetters word)
    (hWord : word.words = [word])
    (hAfter : (ofText t).afterKeyword? word = some after) :
    ∃ lead keyword,
      Text.IsBlank lead ∧ Text.Occurs [word] t lead keyword after.rest := by
  have hWords : ∀ w ∈ word.words, Text.IsLetters w := by
    simpa [hWord] using hLetters
  rcases (afterKeyword?_eq_some_iff hWords).mp hAfter
    with ⟨lead, keyword, rest, hText, hBlank, hSpells, hEnds, rfl⟩
  rw [hWord] at hSpells
  exact
    ⟨lead, keyword, hBlank,
      ⟨hText, Text.balanced_of_isBlank hBlank,
        Text.endsBefore_of_isBlank hBlank, hSpells, hEnds⟩⟩

/- A cursor moves over a keyword that occurs behind blanks. -/
theorem afterKeyword?_of_occurs
    (hLetters : Text.IsLetters word)
    (hWord : word.words = [word])
    (hBlank : Text.IsBlank lead)
    (hOccurs : Text.Occurs [word] t lead keyword rest) :
    (ofText t).afterKeyword? word = some ⟨t, rest, 0⟩ := by
  have hWords : ∀ w ∈ word.words, Text.IsLetters w := by
    simpa [hWord] using hLetters
  have hSpells : Text.Spells word.words keyword := by
    rw [hWord]
    exact hOccurs.spells
  exact
    (afterKeyword?_eq_some_iff hWords).mpr
      ⟨lead, keyword, rest, hOccurs.split, hBlank, hSpells,
        hOccurs.endsAfter, rfl⟩

end Cursor

------------------------------------------------------------
-- The Sections of a Case
------------------------------------------------------------

namespace Item

variable {e opening closing s : Text}

/- A case ends with the first occurrence of END. -/
theorem requireEnd_eq_ok_iff :
    requireEnd e = .ok () ↔
      Text.Balanced e ∧
        ∃ front keyword,
          Text.First ["END".toList] e front keyword [] := by
  have hLetters : ∀ w ∈ ["END".toList], Text.IsLetters w := by decide
  have hWords : Text.words "END".toList = ["END".toList] := by decide
  rw [requireEnd, bind_eq_ok_iff]
  constructor
  · rintro ⟨cut, hCut, hAfter⟩
    have hBalanced := Text.balanced_of_cutAtKeyword hCut
    refine ⟨hBalanced, ?_⟩
    rw [Text.cutAtKeyword_eq hBalanced, hWords] at hCut
    cases hCut
    rw [← Text.afterFirst?_cutOf_eq_some_iff hLetters hBalanced]
    split at hAfter
    · cases hAfter
    · assumption
    · cases hAfter
  · rintro ⟨hBalanced, hFirst⟩
    rw [← Text.afterFirst?_cutOf_eq_some_iff hLetters hBalanced]
      at hFirst
    refine ⟨_, Text.cutAtKeyword_eq hBalanced, ?_⟩
    rw [hWords, hFirst]

/-
  A section is what is read up to its closing keyword behind
  the first occurrence of its opening one.
-/
theorem requireSection_eq_ok_iff
    (hOpening : Text.IsLetters opening)
    (hWord : opening.words = [opening])
    (hClosing : Text.IsLetters closing)
    (hWord' : closing.words = [closing])
    (hBalanced : Text.Balanced e) :
    requireSection e opening closing = .ok s ↔
      ∃ front keyword after u,
        Text.First [opening] e front keyword after ∧
          Text.Until [closing] after u ∧
          ¬ Text.IsBlank u ∧ s = Text.trim u := by
  have hWords : ∀ w ∈ opening.words, Text.IsLetters w := by
    simpa [hWord] using hOpening
  have hWords' : ∀ k ∈ [closing], ∀ w ∈ k.words, Text.IsLetters w := by
    simpa [hWord'] using hClosing
  have hRead :
      requireSection e opening closing = .ok s ↔
        Text.section? opening [closing] e = .ok (some s) := by
    rw [requireSection, bind_eq_ok_iff]
    constructor
    · rintro ⟨found?, hSection, hFound⟩
      cases found? with
      | none => cases hFound
      | some found => rw [hSection, Except.ok.inj hFound]
    · exact fun hSection => ⟨some s, hSection, rfl⟩
  rw [hRead, Text.section?_eq_some_iff hWords hWords' hBalanced, hWord]

end Item

end SqlSelect
