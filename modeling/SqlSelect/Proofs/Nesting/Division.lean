import SqlSelect.Nesting.Section
import SqlSelect.Nesting.Words
import SqlSelect.Proofs.Nesting.Search

/-
  Cutting balanced texts. Every cut is made at the top level,
  so the walk is outside of all sections and groups wherever
  a part ends, and the parts are balanced themselves.

  Main statements:
    * `Text.balanced_of_mem_pieces`
    * `Text.exists_splitTop`
    * `Words.Divides`
    * `Words.divides_ofMarks`
    * `Text.balanced_trim_iff`
    * `Text.exists_section?`
-/

namespace SqlSelect

------------------------------------------------------------
-- Steps at the Top Level
------------------------------------------------------------

namespace Nesting

/-
  The character that ends the section of a walk, if it is in
  one, is no blank.
-/
def Closes
    (n : Nesting) : Prop :=
  ∀ q, n.closer = some q → isBlank q = false

theorem closes_outside :
    Closes outside := by
  intro q hCloser
  exact absurd hCloser (by simp [outside])

theorem isBlank_eq_false_of_closerOf?
    {c q : Char}
    (hCloser : closerOf? c = some q) :
    isBlank q = false := by
  unfold closerOf? at hCloser
  split at hCloser
  · rename_i hQuote
    rcases Option.some.inj hCloser with rfl
    rcases hQuote with h | h | h <;> subst h <;> decide
  · split at hCloser
    · rcases Option.some.inj hCloser with rfl
      decide
    · exact absurd hCloser (by simp)

theorem Closes.step
    {n m : Nesting}
    {c : Char}
    (hCloses : Closes n)
    (hStep : n.step c = some m) :
    Closes m :=
  (step_eq_some_iff.mp hStep).closer
    (fun _ _ => isBlank_eq_false_of_closerOf?) hCloses

theorem Closes.run
    {n m : Nesting}
    {t : Text}
    (hCloses : Closes n)
    (hRun : n.run t = some m) :
    Closes m := by
  induction t generalizing n with
  | nil =>
      rw [run_nil, Option.some.injEq] at hRun
      rw [← hRun]
      exact hCloses
  | cons c t ih =>
      rcases exists_step_of_run hRun with ⟨next, hStep, hRest⟩
      exact ih (hCloses.step hStep) hRest

/- Blanks change nothing, inside of sections as outside. -/
theorem run_of_isBlank
    {n : Nesting}
    {t : Text}
    (hCloses : Closes n)
    (hBlank : Text.IsBlank t) :
    n.run t = some n := by
  induction t with
  | nil => rfl
  | cons c t ih =>
      rcases Text.isBlank_cons.mp hBlank with ⟨hHead, hRest⟩
      have hStep : n.step c = some n := by
        cases hOpen : n.closer with
        | none =>
            exact step_of_plain hOpen
              (not_isDelimiter_of_isBlank hHead)
        | some q =>
            have hOther : c ≠ q := by
              rintro rfl
              rw [hCloses c hOpen] at hHead
              exact absurd hHead (by decide)
            simp [step, hOpen, hOther]
      rw [run_cons, hStep, Option.bind_some]
      exact ih hRest

end Nesting

------------------------------------------------------------
-- Cuts at Keywords
------------------------------------------------------------

namespace Cut

/-
  The parts of a cut, when the walk over the first of them
  begins where the walk over the text does.
-/
structure Balances
    (n : Nesting)
    (cut : Cut) : Prop where
  head : n.run cut.head = some Nesting.outside
  tail :
    ∀ part ∈ cut.tail,
      Text.Balanced part.1 ∧ Text.Balanced part.2

theorem Balances.prepend
    {n next : Nesting}
    {c : Char}
    {cut : Cut}
    (hStep : n.step c = some next)
    (hCut : Balances next cut) :
    Balances n (prepend [c] cut) := by
  refine ⟨?_, hCut.tail⟩
  change n.run (c :: cut.head) = some Nesting.outside
  rw [Nesting.run_cons, hStep]
  exact hCut.head

theorem Balances.occurrence
    {keyword : Text}
    {cut : Cut}
    (hKeyword : Text.Balanced keyword)
    (hCut : Balances Nesting.outside cut) :
    Balances Nesting.outside (occurrence keyword cut) := by
  refine ⟨rfl, ?_⟩
  intro part hMem
  rcases List.mem_cons.mp hMem with h | h
  · rw [h]
    exact ⟨hKeyword, hCut.head⟩
  · exact hCut.tail part h

/-
  The parts are balanced, from one occurrence to the next: an
  occurrence is plain text, and the walk is outside behind it.
-/
theorem balances_ofMarks
    {words : List Text}
    (hWords : ∀ w ∈ words, Text.IsLetters w)
    {n : Nesting}
    {t : Text}
    (previous : Option Char)
    (hRun : n.run t = some Nesting.outside) :
    Balances n (ofMarks words previous (n.marking t)) := by
  induction n, previous, t, hRun using
    Nesting.occurs_induction hWords with
  | nil previous =>
      exact
        { head := by simp [Nesting.marking, ofMarks]
          tail := by simp [Nesting.marking, ofMarks] }
  | occurs n previous t keyword after hRun hOccurs hBehind ih =>
      have hOutside : n = Nesting.outside := Option.some.inj hOccurs.run
      subst hOutside
      have hPlain := Text.plain_of_spells hWords hOccurs.spells
      rw [Nesting.ofMarks_of_occurs hWords hRun hOccurs]
      exact Balances.occurrence (Text.balanced_of_plain hPlain) ih
  | cons n next previous c t hRun hStep hRest hNone ih =>
      rw [Nesting.ofMarks_of_not_occurs hWords hRun hStep hNone]
      exact Balances.prepend hStep ih

end Cut

namespace Text

theorem balances_cutOf
    {words : List Text}
    {t : Text}
    (hWords : ∀ w ∈ words, IsLetters w)
    (hBalanced : Balanced t) :
    Cut.Balances Nesting.outside (cutOf words t) :=
  Cut.balances_ofMarks hWords none hBalanced

/- The pieces between occurrences of a keyword are balanced. -/
theorem balanced_of_mem_pieces
    {words : List Text}
    {t piece : Text}
    (hWords : ∀ w ∈ words, IsLetters w)
    (hBalanced : Balanced t)
    (hMem : piece ∈ (cutOf words t).pieces) :
    Balanced piece := by
  have hCut := balances_cutOf hWords hBalanced
  rcases List.mem_cons.mp hMem with h | h
  · rw [h]
    exact hCut.head
  · rcases List.mem_map.mp h with ⟨part, hPart, rfl⟩
    exact (hCut.tail part hPart).2

/- A balanced text is split into balanced pieces. -/
theorem splitAtKeyword_eq
    {keyword t : Text}
    (hBalanced : Balanced t) :
    splitAtKeyword keyword t =
      .ok (cutOf keyword.words t).pieces := by
  rw [splitAtKeyword, cutAtKeyword_eq hBalanced]
  rfl

/- The text behind the first occurrence is balanced. -/
theorem balanced_afterFirst?
    {words : List Text}
    {t after : Text}
    (hWords : ∀ w ∈ words, IsLetters w)
    (hBalanced : Balanced t)
    (hAfter : (cutOf words t).afterFirst? = some after) :
    Balanced after := by
  have hCut := balances_cutOf hWords hBalanced
  have hText := text_cutOf words hBalanced
  cases hTail : (cutOf words t).tail with
  | nil => simp [Cut.afterFirst?, hTail] at hAfter
  | cons first rest =>
      rcases first with ⟨keyword, next⟩
      simp only [Cut.afterFirst?, hTail, Option.some.injEq]
        at hAfter
      subst hAfter
      have hKeyword :=
        (hCut.tail (keyword, next)
          (hTail ▸ List.mem_cons_self)).1
      have hWhole :
          t = (cutOf words t).head ++
            (keyword ++ Cut.text ⟨next, rest⟩) := by
        calc
          t = (cutOf words t).text := hText.symm
          _ = _ := by simp [Cut.text, hTail]
      have hRest := hBalanced
      rw [hWhole, balanced_append_iff hCut.head,
        balanced_append_iff hKeyword] at hRest
      exact hRest

------------------------------------------------------------
-- Cuts at Separators
------------------------------------------------------------

/-
  The pieces between separators, when the walk over the
  first of them begins where the walk over the text does.
-/
theorem balances_pieces
    (separator : Char)
    {n : Nesting}
    {t : Text}
    (hRun : n.run t = some Nesting.outside) :
    ∃ first rest,
      pieces (fun m => decide (Mark.Is separator m))
          (n.marking t) = first :: rest ∧
        n.run (Mark.text first) = some Nesting.outside ∧
        ∀ piece ∈ rest, Balanced (Mark.text piece) := by
  induction t generalizing n with
  | nil =>
      simp only [Nesting.run_nil, Option.some.injEq] at hRun
      subst hRun
      exact ⟨[], [], rfl, rfl, by simp⟩
  | cons c t ih =>
      rcases Nesting.exists_step_of_run hRun
        with ⟨next, hStep, hRest⟩
      rcases ih hRest
        with ⟨first, rest, hPieces, hFirst, hOthers⟩
      rw [Nesting.marking_cons _ hStep]
      by_cases hCut :
          Mark.Is separator ⟨c, decide (n.IsTop c)⟩
      · have hTop : n.IsTop c := of_decide_eq_true hCut.1
        have hNext : next = Nesting.outside := by
          rcases hTop with ⟨rfl, hPlain⟩
          rw [Nesting.step_of_plain rfl hPlain] at hStep
          exact (Option.some.inj hStep).symm
        refine ⟨[], first :: rest, ?_, ?_, ?_⟩
        · simp [pieces, hCut, hPieces]
        · rw [hTop.1]
          rfl
        · intro piece hMem
          rcases List.mem_cons.mp hMem with h | h
          · rw [h]
            rw [hNext] at hFirst
            exact hFirst
          · exact hOthers piece h
      · refine
          ⟨⟨c, decide (n.IsTop c)⟩ :: first, rest, ?_, ?_,
            hOthers⟩
        · simp [pieces, hCut, hPieces, pushFront]
        · change n.run (c :: Mark.text first) = _
          rw [Nesting.run_cons, hStep]
          exact hFirst

/- A balanced text has balanced pieces between separators. -/
theorem exists_splitTop
    (separator : Char)
    {t : Text}
    (hBalanced : Balanced t) :
    ∃ parts,
      splitTop separator t = .ok parts ∧
        ∀ piece ∈ parts, Balanced piece := by
  rcases balances_pieces separator hBalanced
    with ⟨first, rest, hPieces, hFirst, hOthers⟩
  refine
    ⟨Mark.text first :: rest.map Mark.text, ?_, ?_⟩
  · rw [splitTop, marked_eq, if_pos hBalanced]
    simp only [Except.map, marking, hPieces, List.map_cons]
  · intro piece hMem
    rcases List.mem_cons.mp hMem with h | h
    · rw [h]
      exact hFirst
    · rcases List.mem_map.mp h with ⟨marks, hMarks, rfl⟩
      exact hOthers marks hMarks

end Text

------------------------------------------------------------
-- Cuts into Words
------------------------------------------------------------

namespace Words

/-
  Gaps are blank and words are balanced, when the walk over
  the first word begins where the walk over the text does. A
  gap in front of it is met outside only.
-/
def Divides
    (n : Nesting)
    (w : Words) : Prop :=
  Text.IsBlank w.trailing ∧
    match w.list with
    | [] => n = Nesting.outside
    | (gap, word) :: rest =>
        Text.IsBlank gap ∧
          (gap ≠ [] → n = Nesting.outside) ∧
          n.run word = some Nesting.outside ∧
          ∀ part ∈ rest,
            Text.IsBlank part.1 ∧ Text.Balanced part.2

theorem Divides.pushGap
    {c : Char}
    {w : Words}
    (hBlank : isBlank c = true)
    (hDivides : Divides Nesting.outside w) :
    Divides Nesting.outside (pushGap c w) := by
  rcases w with ⟨list, trailing⟩
  cases list with
  | nil =>
      exact
        ⟨Text.isBlank_cons.mpr ⟨hBlank, hDivides.1⟩, rfl⟩
  | cons part rest =>
      rcases hDivides with ⟨hTrailing, hGap, -, hWord, hRest⟩
      exact
        ⟨hTrailing, Text.isBlank_cons.mpr ⟨hBlank, hGap⟩,
          fun _ => rfl, hWord, hRest⟩

theorem Divides.pushWord
    {n next : Nesting}
    {c : Char}
    {w : Words}
    (hStep : n.step c = some next)
    (hDivides : Divides next w) :
    Divides n (pushWord c w) := by
  rcases w with ⟨list, trailing⟩
  rcases hDivides with ⟨hTrailing, hList⟩
  rcases list with _ | ⟨⟨gap, word⟩, rest⟩
  · have hNext : next = Nesting.outside := hList
    refine ⟨hTrailing, rfl, fun h => absurd rfl h, ?_, ?_⟩
    · rw [Nesting.run_cons, hStep, hNext]
      rfl
    · exact fun part h => absurd h List.not_mem_nil
  · rcases hList with ⟨hGap, hOutside, hWord, hRest⟩
    cases gap with
    | nil =>
        refine
          ⟨hTrailing, rfl, fun h => absurd rfl h, ?_, hRest⟩
        rw [Nesting.run_cons, hStep]
        exact hWord
    | cons d gap =>
        have hNext : next = Nesting.outside :=
          hOutside (List.cons_ne_nil d gap)
        refine
          ⟨hTrailing, rfl, fun h => absurd rfl h, ?_, ?_⟩
        · rw [Nesting.run_cons, hStep, hNext]
          rfl
        · intro part hMem
          rcases List.mem_cons.mp hMem with h | h
          · rw [h]
            rw [hNext] at hWord
            exact ⟨hGap, hWord⟩
          · exact hRest part h

theorem divides_ofMarks
    {n : Nesting}
    {t : Text}
    (hRun : n.run t = some Nesting.outside) :
    Divides n (ofMarks (n.marking t)) := by
  induction t generalizing n with
  | nil =>
      simp only [Nesting.run_nil, Option.some.injEq] at hRun
      exact ⟨rfl, hRun⟩
  | cons c t ih =>
      rcases Nesting.exists_step_of_run hRun
        with ⟨next, hStep, hRest⟩
      have hDivides := ih hRest
      rw [Nesting.marking_cons _ hStep, ofMarks]
      split
      · rename_i hGap
        rcases hGap with ⟨hTop, hBlank⟩
        have hIsTop : n.IsTop c := of_decide_eq_true hTop
        rcases hIsTop with ⟨rfl, hPlain⟩
        rw [Nesting.step_of_plain rfl hPlain] at hStep
        have hNext : Nesting.outside = next :=
          Option.some.inj hStep
        subst hNext
        exact hDivides.pushGap hBlank
      · exact hDivides.pushWord hStep

theorem topWords_eq
    {t : Text}
    (hBalanced : Text.Balanced t) :
    Text.topWords t = .ok (ofMarks (Text.marking t)) := by
  rw [Text.topWords, Text.marked_eq, if_pos hBalanced]
  rfl

/- The words of a balanced text are balanced. -/
theorem balanced_of_mem_list
    {t : Text}
    (hBalanced : Text.Balanced t)
    {part : Text × Text}
    (hMem : part ∈ (ofMarks (Text.marking t)).list) :
    Text.IsBlank part.1 ∧ Text.Balanced part.2 := by
  have hDivides := divides_ofMarks hBalanced
  rcases hDivides with ⟨-, hList⟩
  simp only [Text.marking] at hMem
  cases hParts : (ofMarks (Nesting.outside.marking t)).list with
  | nil =>
      rw [hParts] at hMem
      exact absurd hMem List.not_mem_nil
  | cons first rest =>
      rw [hParts] at hMem hList
      rcases hList with ⟨hGap, -, hWord, hRest⟩
      rcases List.mem_cons.mp hMem with h | h
      · rw [h]
        exact ⟨hGap, hWord⟩
      · exact hRest part h

theorem balanced_of_mem_words
    {t word : Text}
    (hBalanced : Text.Balanced t)
    (hMem : word ∈ (ofMarks (Text.marking t)).words) :
    Text.Balanced word := by
  rcases List.mem_map.mp hMem with ⟨part, hPart, rfl⟩
  exact (balanced_of_mem_list hBalanced hPart).2

/- The text through some of the words is balanced. -/
theorem balanced_through
    {t : Text}
    (hBalanced : Text.Balanced t)
    (count : Nat) :
    Text.Balanced
      ((ofMarks (Text.marking t)).through count) := by
  have hParts :
      ∀ part ∈ (ofMarks (Text.marking t)).list.take count,
        Text.IsBlank part.1 ∧ Text.Balanced part.2 :=
    fun part h =>
      balanced_of_mem_list hBalanced (List.mem_of_mem_take h)
  rw [through]
  revert hParts
  generalize (ofMarks (Text.marking t)).list.take count = parts
  intro hParts
  induction parts with
  | nil => rfl
  | cons part rest ih =>
      rcases hParts part List.mem_cons_self with ⟨hGap, hWord⟩
      rw [List.flatMap_cons]
      exact Text.balanced_append
        (Text.balanced_append (Text.balanced_of_isBlank hGap)
          hWord)
        (ih fun p h => hParts p (List.mem_cons_of_mem part h))

end Words

------------------------------------------------------------
-- Sections
------------------------------------------------------------

namespace Text

/- Blanks behind a text make no difference. -/
theorem balanced_append_blank_iff
    {t b : Text}
    (hBlank : IsBlank b) :
    Balanced (t ++ b) ↔ Balanced t := by
  constructor
  · intro hBalanced
    rw [Balanced, Nesting.run_append] at hBalanced
    rcases Option.bind_eq_some_iff.mp hBalanced
      with ⟨m, hRun, hRest⟩
    have hStays :=
      Nesting.run_of_isBlank
        (Nesting.Closes.run Nesting.closes_outside hRun) hBlank
    rw [hStays] at hRest
    rw [Balanced, hRun]
    exact hRest
  · intro hBalanced
    exact balanced_append hBalanced (balanced_of_isBlank hBlank)

/- Trimming keeps a text balanced or not balanced. -/
theorem balanced_trim_iff
    {t : Text} :
    Balanced (trim t) ↔ Balanced t := by
  rcases exists_blanks_trim t
    with ⟨b, b', hBlank, hBlank', hText⟩
  have hWhole :
      Balanced (b ++ trim t ++ b') ↔ Balanced (trim t) := by
    rw [balanced_append_blank_iff hBlank',
      balanced_append_iff (balanced_of_isBlank hBlank)]
  rw [← hText] at hWhole
  exact hWhole.symm

/- The text in front of a keyword is balanced. -/
theorem exists_untilKeyword
    {keyword t : Text}
    (hWords : ∀ w ∈ keyword.words, IsLetters w)
    (hBalanced : Balanced t) :
    ∃ head, untilKeyword keyword t = .ok head ∧ Balanced head := by
  refine
    ⟨(cutOf keyword.words t).head, ?_,
      (balances_cutOf hWords hBalanced).head⟩
  rw [untilKeyword, cutAtKeyword_eq hBalanced]
  rfl

theorem exists_untilKeywords
    {t : Text}
    {keywords : List Text}
    (hKeywords :
      ∀ k ∈ keywords, ∀ w ∈ k.words, IsLetters w)
    (hBalanced : Balanced t) :
    ∃ head,
      untilKeywords t keywords = .ok head ∧ Balanced head := by
  induction keywords with
  | nil => exact ⟨t, rfl, hBalanced⟩
  | cons keyword keywords ih =>
      rcases
          exists_untilKeyword
            (hKeywords keyword List.mem_cons_self) hBalanced
        with ⟨first, hFirst, hFirstBalanced⟩
      rcases
          ih fun k h => hKeywords k (List.mem_cons_of_mem keyword h)
        with ⟨rest, hRest, hRestBalanced⟩
      refine
        ⟨if first.length ≤ rest.length then first else rest,
          ?_, ?_⟩
      · simp only [untilKeywords, hFirst, hRest, bind,
          Except.bind, pure, Except.pure]
      · split
        · exact hFirstBalanced
        · exact hRestBalanced

/- A balanced text has balanced sections. -/
theorem exists_section?
    (opening : Text)
    (closing : List Text)
    {t : Text}
    (hOpening : ∀ w ∈ opening.words, IsLetters w)
    (hClosing : ∀ k ∈ closing, ∀ w ∈ k.words, IsLetters w)
    (hBalanced : Balanced t) :
    ∃ found,
      Text.section? opening closing t = .ok found ∧
        ∀ part, found = some part → Balanced part := by
  simp only [section?, cutAtKeyword_eq hBalanced, bind,
    Except.bind]
  cases hAfter : (cutOf opening.words t).afterFirst? with
  | none => exact ⟨none, rfl, fun _ h => absurd h (by simp)⟩
  | some after =>
      rcases
          exists_untilKeywords hClosing
            (balanced_afterFirst? hOpening hBalanced hAfter)
        with ⟨head, hHead, hHeadBalanced⟩
      refine ⟨nonblank? head, ?_, ?_⟩
      · simp only [hHead, pure, Except.pure]
      · intro part hPart
        rw [nonblank?] at hPart
        split at hPart
        · exact absurd hPart (by simp)
        · rw [← Option.some.inj hPart]
          exact balanced_trim_iff.mpr hHeadBalanced

end Text

end SqlSelect
