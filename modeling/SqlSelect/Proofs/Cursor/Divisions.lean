import SqlSelect.Proofs.Cursor.Keywords
import SqlSelect.Proofs.Nesting.Words
import SqlSelect.Proofs.Recall.Lists

/-
  Texts divided on the way of a cursor. An account that is
  kept over the characters at the top level comes to what the
  marks of the text tell: the characters with their bytes, the
  pieces between separators, the pieces between keywords, and
  the ranges of the words.

  Main statements:
    * `Cursor.topChars_eq`
    * `Cursor.takePiece_eq`
    * `Cursor.splitTop_eq`
    * `Cursor.splitAtKeyword_eq`
    * `Cursor.takeWord_eq`
    * `Cursor.topWords_eq`
-/

namespace SqlSelect

open Text

------------------------------------------------------------
-- Characters
------------------------------------------------------------

/-
  The characters of the marks that are at the top level, each
  with its byte, when the first mark is that of the byte given.
-/
def Mark.topsFrom
    (start : Nat) : List Mark → List (Nat × Char)
  | [] => []
  | m :: rest =>
      if m.top = true then
        (start, m.char) :: topsFrom (start + m.char.utf8Size) rest
      else topsFrom (start + m.char.utf8Size) rest

theorem Mark.topsFrom_append
    (start : Nat)
    (ms rest : List Mark) :
    topsFrom start (ms ++ rest) =
      topsFrom start ms ++
        topsFrom (start + byteSize (Mark.text ms)) rest := by
  induction ms generalizing start with
  | nil => rfl
  | cons m ms ih =>
      rw [List.cons_append, topsFrom, topsFrom, ih]
      simp only [Mark.text, List.map_cons, byteSize_cons, Nat.add_assoc]
      split <;> rfl

theorem Mark.topsFrom_of_hidden
    {ms : List Mark}
    (start : Nat)
    (hHidden : Nesting.Hidden ms) :
    topsFrom start ms = [] := by
  induction ms generalizing start with
  | nil => rfl
  | cons m ms ih =>
      rw [topsFrom, hHidden m List.mem_cons_self]
      exact ih _ fun m' hMem => hHidden m' (List.mem_cons_of_mem m hMem)

theorem Mark.exists_of_mem_topsFrom
    {ms : List Mark}
    {start : Nat}
    {found : Nat × Char}
    (hMem : found ∈ topsFrom start ms) :
    ∃ m ∈ ms, m.top = true ∧ m.char = found.2 := by
  induction ms generalizing start with
  | nil => cases hMem
  | cons m ms ih =>
      rw [topsFrom] at hMem
      split_ifs at hMem with hTop
      · rcases List.mem_cons.mp hMem with rfl | hMem
        · exact ⟨m, List.mem_cons_self, hTop, rfl⟩
        · rcases ih hMem with ⟨m', hMark, hFound⟩
          exact ⟨m', List.mem_cons_of_mem m hMark, hFound⟩
      · rcases ih hMem with ⟨m', hMark, hFound⟩
        exact ⟨m', List.mem_cons_of_mem m hMark, hFound⟩

namespace Cursor

variable {front rest : Text}

/-
  Behind what is in front of it the cursor finds the top level
  of the rest, by the induction of the walk.
-/
theorem topChars_eq
    (front : Text)
    (hBalanced : Text.Balanced rest) :
    topChars ⟨front ++ rest, rest, 0⟩ =
      .ok (Mark.topsFrom (byteSize front) (marking rest)) := by
  have hFinds :
      ∀ front found,
        overTop (fun found _ _ next => found ++ [next])
            (fun found _ _ => found) found ⟨front ++ rest, rest, 0⟩ =
          .ok
            (found ++
              Mark.topsFrom (byteSize front) (marking rest)) := by
    induction rest, hBalanced using top_induction with
    | last passed hPassed hPasses =>
        intro front found
        rw [overTop_of_end front hPassed hPasses,
          Mark.topsFrom_of_hidden _ (hidden_of_passes hPasses),
          List.append_nil]
    | next passed c rest hPassed hPlain hRest hPasses ih =>
        intro front found
        have hSplit :
            front ++ (passed ++ c :: rest) =
              (front ++ passed ++ [c]) ++ rest := by
          simp
        rw [overTop_of_next front rest hPassed hPasses hPlain,
          marking_append_cons rest hPassed hPlain,
          Mark.topsFrom_append,
          Mark.topsFrom_of_hidden _ (hidden_of_passes hPasses),
          text_marking hPassed, hSplit, ih]
        simp [Mark.topsFrom, Nat.add_assoc]
  exact hFinds front []

------------------------------------------------------------
-- Pieces
------------------------------------------------------------

end Cursor

/- The slices at ranges that cut texts out are these texts. -/
theorem Range.map_slice_of_cuts
    {t : Text}
    {ranges : List Range}
    {texts : List Text}
    (hCuts :
      List.Forall₂ (fun r text => Range.Cuts r t text) ranges texts) :
    (ranges.map fun r => r.slice t) = texts := by
  induction hCuts with
  | nil => rfl
  | cons hCut _ ih => rw [List.map_cons, hCut.2, ih]

namespace Text

variable {separator : Char}
variable {s : Text}

/- Without a cut the first elements are in the first piece. -/
theorem pieces_append_of_none
    {α : Type}
    {front : List α}
    (isCut : α → Bool)
    (rest : List α)
    (hNone : ∀ a ∈ front, isCut a = false) :
    pieces isCut (front ++ rest) =
      (pieces isCut rest).modifyHead (front ++ ·) := by
  induction front with
  | nil =>
      rw [List.nil_append]
      cases pieces isCut rest <;> rfl
  | cons a front ih =>
      rw [List.cons_append, pieces, hNone a List.mem_cons_self,
        ih fun b hMem => hNone b (List.mem_cons_of_mem a hMem)]
      cases hRest : pieces isCut rest with
      | nil => exact absurd hRest (pieces_ne_nil isCut rest)
      | cons piece others => rfl

theorem topPieces_append_of_none
    (t : Text)
    (hBalanced : Balanced s)
    (hNone : NoneAtTop separator s) :
    topPieces separator (s ++ t) =
      (topPieces separator t).modifyHead (s ++ ·) := by
  have hMarks :=
    pieces_append_of_none (fun m => decide (Mark.Is separator m))
      (marking t) fun m hMem => decide_eq_false (hNone m hMem)
  rw [topPieces, marking_append _ hBalanced, hMarks, topPieces]
  cases pieces (fun m => decide (Mark.Is separator m)) (marking t) with
  | nil => rfl
  | cons piece others =>
      simp only [List.modifyHead_cons, List.map_cons, Mark.text,
        List.map_append]
      rw [← Mark.text, text_marking hBalanced]

/- A character other than the separator is none. -/
theorem noneAtTop_append_other
    {passed : Text}
    {c : Char}
    (hPassed : Balanced passed)
    (hPasses : Nesting.outside.Passes (fun _ => true) passed)
    (hPlain : ¬ IsDelimiter c)
    (hOther : c ≠ separator) :
    NoneAtTop separator (passed ++ [c]) := by
  intro m hMem
  rw [marking_append_cons [] hPassed hPlain] at hMem
  rcases List.mem_append.mp hMem with hMem | hMem
  · exact noneAtTop_of_hidden separator (hidden_of_passes hPasses) m hMem
  · rw [List.mem_singleton.mp hMem]
    exact fun hIs => hOther hIs.2

end Text

namespace Cursor

variable {separator : Char}
variable {front rest : Text}

/- Over a character at the top level: a separator ends the piece. -/
theorem takePiece_eq
    (separator : Char)
    (before piece passed rest : Text)
    (c : Char)
    (found : List Text)
    (after : Cursor) :
    takePiece separator (found, byteSize before)
        ⟨before ++ piece ++ (passed ++ c :: rest), passed ++ c :: rest, 0⟩
        after (byteSize (before ++ piece ++ passed), c) =
      if c = separator then
        (found ++ [piece ++ passed],
          byteSize (before ++ piece ++ passed ++ [c]))
      else (found, byteSize before) := by
  have hSlice :
      Range.slice
          ⟨byteSize before, byteSize (before ++ piece ++ passed)⟩
          (before ++ piece ++ (passed ++ c :: rest)) =
        piece ++ passed := by
    have hCuts :=
      Range.slice_append before (piece ++ passed) (c :: rest)
    simpa [Nat.add_assoc] using hCuts
  rw [takePiece, hSlice]
  split_ifs <;> simp [Nat.add_assoc]

/-
  The pieces of the rest of a text, when `piece` is in front
  of it since the last separator.
-/
theorem overTop_takePiece
    (separator : Char)
    (before piece : Text)
    (found : List Text)
    (hBalanced : Text.Balanced rest) :
    overTop (takePiece separator) closePieces
        (found, byteSize before) ⟨before ++ piece ++ rest, rest, 0⟩ =
      .ok
        (found ++
          (topPieces separator rest).modifyHead (piece ++ ·)) := by
  induction rest, hBalanced using top_induction
    generalizing before piece found with
  | last passed hPassed hPasses =>
      have hSlice :=
        Range.cuts_behind before (piece ++ passed)
      rw [overTop_of_end _ hPassed hPasses,
        topPieces_of_none hPassed
          (noneAtTop_of_hidden separator (hidden_of_passes hPasses)),
        closePieces, List.append_assoc, hSlice.2]
      rfl
  | next passed c rest hPassed hPlain hRest hPasses ih =>
      rw [overTop_of_next _ rest hPassed hPasses hPlain, takePiece_eq]
      by_cases hIs : c = separator
      · -- The next piece begins behind the separator.
        subst hIs
        have hText :
            before ++ piece ++ (passed ++ c :: rest) =
              (before ++ piece ++ passed ++ [c]) ++ [] ++ rest := by
          simp
        rw [if_pos rfl, hText, ih,
          topPieces_append_cons hPlain hPassed
            (noneAtTop_of_hidden c (hidden_of_passes hPasses))]
        cases topPieces c rest <;> simp
      · have hNone :=
          noneAtTop_append_other hPassed hPasses hPlain hIs
        have hText :
            before ++ piece ++ (passed ++ c :: rest) =
              before ++ (piece ++ (passed ++ [c])) ++ rest := by
          simp
        have hWhole : passed ++ c :: rest = passed ++ [c] ++ rest := by
          simp
        have hFront : Text.Balanced (passed ++ [c]) :=
          (balanced_append_cons_iff hPassed hPlain).mpr balanced_nil
        rw [if_neg hIs, hText, ih, hWhole,
          topPieces_append_of_none _ hFront hNone]
        cases topPieces separator rest <;> simp

/- The pieces found are those between the separators. -/
theorem splitTop_eq
    (separator : Char)
    (t : Text) :
    splitTop separator t = Text.splitTop separator t := by
  by_cases hBalanced : Text.Balanced t
  · have hFound :=
      overTop_takePiece separator [] [] [] hBalanced
    rw [Text.splitTop_eq hBalanced]
    refine hFound.trans ?_
    cases topPieces separator t <;> rfl
  · rw [Text.splitTop, marked_eq, if_neg hBalanced]
    exact overTop_of_not_balanced [] hBalanced

/- The texts in the gaps between some ranges are the pieces. -/
theorem piecesBetween_eq
    (t : Text)
    (start : Nat)
    (ranges : List Range) :
    piecesBetween t start ranges =
      (Range.gaps start (byteSize t) ranges).map
        fun r => r.slice t := by
  induction ranges generalizing start with
  | nil => rfl
  | cons r ranges ih =>
      rw [piecesBetween, ih]
      rfl

theorem splitAtKeyword_eq
    {keyword : Text}
    (hWords : ∀ w ∈ keyword.words, IsLetters w)
    (t : Text) :
    splitAtKeyword keyword t = Text.splitAtKeyword keyword t := by
  rw [splitAtKeyword, keywordRanges_eq_keywordRanges hWords]
  by_cases hBalanced : Text.Balanced t
  · have hPieces :
        Text.splitAtKeyword keyword t =
          .ok (cutOf keyword.words t).pieces :=
      Text.splitAtKeyword_eq hBalanced
    rcases exists_gaps_splitAtKeyword hPieces
      with ⟨ranges, hRanges, hGaps⟩
    rw [hRanges, hPieces]
    refine congrArg Except.ok ?_
    rw [piecesBetween_eq]
    exact Range.map_slice_of_cuts hGaps
  · rw [Text.splitAtKeyword, Text.keywordRanges, cutAtKeyword,
      marked_eq, if_neg hBalanced]
    rfl

end Cursor

------------------------------------------------------------
-- Words
------------------------------------------------------------

/- Behind a gap the ranges begin as many bytes later. -/
theorem Words.rangesFrom_append_gap
    (start : Nat)
    (gap : Text)
    (w : Words) :
    rangesFrom start (append ⟨[], gap⟩ w).list =
      rangesFrom (start + byteSize gap) w.list := by
  rcases w with ⟨_ | ⟨⟨first, word⟩, list⟩, trailing⟩
  · rfl
  · simp [append, rangesFrom, Nat.add_assoc]

namespace Text

variable {word rest : Text}
variable {c : Char}

theorem passes_append
    {halt : Char → Bool}
    (hBalanced : Balanced word)
    (hPasses : Nesting.outside.Passes halt word)
    (hRest : Nesting.outside.Passes halt rest) :
    Nesting.outside.Passes halt (word ++ rest) := by
  intro m hMem
  rw [← marking, marking_append rest hBalanced] at hMem
  exact (List.mem_append.mp hMem).elim (hPasses m) (hRest m)

/-
  The ranges of a text that is one word, if there is anything
  of it, in front of a blank are that of the word and those of
  the rest.
-/
theorem rangesFrom_word_append
    (start : Nat)
    (rest : Text)
    (hBalanced : Balanced word)
    (hPasses : Nesting.outside.Passes SqlSelect.isBlank word)
    (hBlank : SqlSelect.isBlank c = true) :
    Words.rangesFrom start (wordsOf (word ++ c :: rest)).list =
      Words.rangesFrom start (wordsOf word).list ++
        Words.rangesFrom (start + byteSize word + c.utf8Size)
          (wordsOf rest).list := by
  have hGap : IsBlank [c] := isBlank_iff.mpr (by simpa using hBlank)
  by_cases hNone : word = []
  · subst hNone
    have hBehind := wordsOf_blank_append rest hGap
    rw [List.nil_append, ← List.singleton_append, hBehind,
      Words.rangesFrom_append_gap]
    have hNil : (wordsOf []).list = [] := rfl
    simp [hNil, Words.rangesFrom]
  · have hBehind :=
      wordsOf_append rest hBalanced (List.cons_ne_nil c []) hGap
    rw [← List.singleton_append, hBehind,
      wordsOf_word hNone hBalanced hPasses]
    rcases wordsOf rest with ⟨_ | ⟨⟨gap, first⟩, list⟩, trailing⟩ <;>
      simp [Words.append, Words.rangesFrom, Nat.add_assoc]

/- The same at the end of the text. -/
theorem rangesFrom_word
    (start : Nat)
    (hBalanced : Balanced word)
    (hPasses : Nesting.outside.Passes SqlSelect.isBlank word) :
    Words.rangesFrom start (wordsOf word).list =
      if word = [] then [] else [⟨start, start + byteSize word⟩] := by
  by_cases hNone : word = []
  · subst hNone
    rfl
  · rw [wordsOf_word hNone hBalanced hPasses, if_neg hNone]
    rfl

/- What a walk passes does not begin with a blank. -/
theorem head?_any_isBlank_of_passes
    (hPasses : Nesting.outside.Passes (fun _ => true) word) :
    word.head?.any SqlSelect.isBlank = false := by
  cases word with
  | nil => rfl
  | cons c word =>
      by_contra hBlank
      have hBlank : SqlSelect.isBlank c = true := by simpa using hBlank
      have hPlain := not_isDelimiter_of_isBlank hBlank
      have hStep := Nesting.step_of_plain (n := Nesting.outside) rfl hPlain
      rw [Nesting.passes_cons hStep] at hPasses
      exact Bool.noConfusion (hPasses.1 ⟨rfl, hPlain⟩)

end Text

namespace Cursor

variable {word passed rest : Text}
variable {c : Char}

/-
  A word has begun, if there is anything of it already, or if
  the cursor has moved and there was no blank in front of it.
-/
theorem wordStart_eq
    (before word taken behind : Text) :
    wordStart (if word = [] then none else some (byteSize before))
        ⟨before ++ word ++ (taken ++ behind), taken ++ behind, 0⟩
        ⟨before ++ word ++ (taken ++ behind), behind, 0⟩ =
      if word = [] ∧ (taken = [] ∨ taken.head?.any isBlank = true) then
        none
      else some (byteSize before) := by
  by_cases hWord : word = []
  · subst hWord
    have hSlice := (Range.cuts_behind before (taken ++ behind)).2
    have hHere :
        position ⟨before ++ (taken ++ behind), taken ++ behind, 0⟩ =
          byteSize before := by
      simp [position]
    have hThere :
        position ⟨before ++ (taken ++ behind), behind, 0⟩ =
          byteSize before + byteSize taken := by
      simp only [position, byteSize_append]
      omega
    simp only [wordStart, if_true, true_and, List.append_nil, hHere,
      hThere, hSlice]
    cases taken with
    | nil => simp
    | cons c taken =>
        have hPos := Char.utf8Size_pos c
        cases hBlank : isBlank c <;> simp [hPos.ne', hBlank]
  · simp [wordStart, hWord]

/-
  Over a character at the top level: the word goes up to it,
  and is found there if the character is a blank.
-/
theorem takeWord_eq
    (before rest : Text)
    (found : List Range)
    (hWord : Text.Balanced word)
    (hNoBlank : Nesting.outside.Passes isBlank word)
    (hPassed : Text.Balanced passed)
    (hPasses : Nesting.outside.Passes (fun _ => true) passed) :
    takeWord
        (found, if word = [] then none else some (byteSize before))
        ⟨before ++ word ++ (passed ++ c :: rest), passed ++ c :: rest, 0⟩
        ⟨before ++ word ++ (passed ++ c :: rest), rest, 0⟩
        (byteSize (before ++ word ++ passed), c) =
      if isBlank c = true then
        (found ++
          Words.rangesFrom (byteSize before)
            (wordsOf (word ++ passed)).list,
          none)
      else (found, some (byteSize before)) := by
  have hNone : Nesting.outside.Passes isBlank passed :=
    Nesting.passes_of_hidden (hidden_of_passes hPasses)
  have hBegins :
      (passed ++ [c] = [] ∨ (passed ++ [c]).head?.any isBlank = true) ↔
        passed = [] ∧ isBlank c = true := by
    have hHead := head?_any_isBlank_of_passes hPasses
    cases passed with
    | nil => simp
    | cons d passed => simpa using hHead
  have hStart := wordStart_eq before word (passed ++ [c]) rest
  simp only [hBegins, List.append_assoc passed,
    List.singleton_append] at hStart
  rw [takeWord, hStart]
  by_cases hBlank : isBlank c = true
  · have hSize :
        byteSize (before ++ word ++ passed) =
          byteSize before + byteSize (word ++ passed) := by
      rw [List.append_assoc, byteSize_append]
    rw [rangesFrom_word _ (balanced_append hWord hPassed)
      (passes_append hWord hNoBlank hNone)]
    simp only [hBlank, if_true, and_true, hSize,
      ← List.append_eq_nil_iff]
    split_ifs <;> simp
  · simp [hBlank]

/- At the end of the text the word goes up to there. -/
theorem closeWords_eq
    (before : Text)
    (found : List Range)
    (hWord : Text.Balanced word)
    (hNoBlank : Nesting.outside.Passes isBlank word)
    (hPassed : Text.Balanced passed)
    (hPasses : Nesting.outside.Passes (fun _ => true) passed) :
    closeWords
        (found, if word = [] then none else some (byteSize before))
        ⟨before ++ word ++ passed, passed, 0⟩
        ⟨before ++ word ++ passed, [], 0⟩ =
      found ++
        Words.rangesFrom (byteSize before)
          (wordsOf (word ++ passed)).list := by
  have hNone : Nesting.outside.Passes isBlank passed :=
    Nesting.passes_of_hidden (hidden_of_passes hPasses)
  have hStart := wordStart_eq before word passed []
  simp only [head?_any_isBlank_of_passes hPasses, Bool.false_eq_true,
    or_false, ← List.append_eq_nil_iff, List.append_nil] at hStart
  rw [closeWords, hStart,
    rangesFrom_word _ (balanced_append hWord hPassed)
      (passes_append hWord hNoBlank hNone)]
  split_ifs <;> simp

/-
  The words found and those of the rest of a text, when `word`
  is the part in front of it that is not at its end.
-/
theorem overTop_takeWord
    (before : Text)
    (found : List Range)
    (hWord : Text.Balanced word)
    (hNoBlank : Nesting.outside.Passes isBlank word)
    (hBalanced : Text.Balanced rest) :
    overTop takeWord closeWords
        (found, if word = [] then none else some (byteSize before))
        ⟨before ++ word ++ rest, rest, 0⟩ =
      .ok
        (found ++
          Words.rangesFrom (byteSize before)
            (wordsOf (word ++ rest)).list) := by
  induction rest, hBalanced using top_induction
    generalizing before word found with
  | last passed hPassed hPasses =>
      rw [overTop_of_end _ hPassed hPasses,
        closeWords_eq before found hWord hNoBlank hPassed hPasses]
  | next passed c rest hPassed hPlain hRest hPasses ih =>
      have hNone : Nesting.outside.Passes isBlank passed :=
        Nesting.passes_of_hidden (hidden_of_passes hPasses)
      have hWhole := passes_append hWord hNoBlank hNone
      have hFront := balanced_append hWord hPassed
      rw [overTop_of_next _ rest hPassed hPasses hPlain,
        takeWord_eq before rest found hWord hNoBlank hPassed hPasses]
      by_cases hBlank : isBlank c = true
      · -- The next word begins behind the blank.
        have hText :
            before ++ word ++ (passed ++ c :: rest) =
              (before ++ word ++ passed ++ [c]) ++ [] ++ rest := by
          simp
        have hSize :
            byteSize before + byteSize (word ++ passed) + c.utf8Size =
              byteSize (before ++ word ++ passed ++ [c]) := by
          simp [Nat.add_assoc]
        have hWords :=
          rangesFrom_word_append (byteSize before) rest hFront hWhole
            hBlank
        rw [hSize, List.append_assoc word] at hWords
        rw [if_pos hBlank, hText, hWords, ← List.append_assoc]
        exact
          ih (before ++ word ++ passed ++ [c]) _ balanced_nil
            (Nesting.passes_nil isBlank Nesting.outside)
      · -- The character belongs to the word.
        have hText :
            before ++ word ++ (passed ++ c :: rest) =
              before ++ (word ++ passed ++ [c]) ++ rest := by
          simp
        have hLonger :
            word ++ (passed ++ c :: rest) =
              word ++ passed ++ [c] ++ rest := by
          simp
        have hChar : Text.Balanced [c] :=
          balanced_of_plain (by simpa using hPlain)
        have hNoBlank' : Nesting.outside.Passes isBlank [c] :=
          Nesting.passes_of_forall hChar (by simpa using hBlank)
        have hFound :=
          ih before found (balanced_append hFront hChar)
            (passes_append hFront hWhole hNoBlank')
        rw [if_neg (by simp)] at hFound
        rw [if_neg hBlank, hText, hLonger]
        exact hFound

/- The words found are those between the gaps. -/
theorem topWords_eq
    (t : Text) :
    topWords t = (Text.topWords t).map Words.ranges := by
  by_cases hBalanced : Text.Balanced t
  · have hFound :=
      overTop_takeWord [] [] balanced_nil
        (Nesting.passes_nil isBlank Nesting.outside) hBalanced
    rw [Text.topWords_eq hBalanced]
    exact hFound
  · rw [Text.topWords, marked_eq, if_neg hBalanced]
    exact overTop_of_not_balanced [] hBalanced

end Cursor

end SqlSelect
