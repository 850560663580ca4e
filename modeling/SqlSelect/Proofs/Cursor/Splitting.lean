import SqlSelect.Proofs.Cursor.Divisions
import SqlSelect.Proofs.Nesting.Composition
import SqlSelect.Proofs.Selection.Pieces

/-
  Texts that are split. Nothing of a text is lost when it is
  split, and nothing more can be split: every piece is
  balanced, and neither the separator nor the keyword is in it
  where it stands alone. At a keyword this takes that a cut
  makes no occurrence, neither in front of it nor behind it.

  Main statements:
    * `Text.cutOf_of_first`
    * `Text.isFree_of_mem_pieces`
    * `Text.exists_splitTop_join`
    * `Cursor.split_lossless_final`
-/

namespace SqlSelect

open Text

------------------------------------------------------------
-- Cuts at the First Occurrence
------------------------------------------------------------

namespace Nesting

variable {n : Nesting}
variable {words : List Text}
variable {t front keyword after : Text}

/-
  Marks are cut at the first occurrence and then as those
  behind it. By induction on the text in front of it.
-/
theorem ofMarks_of_first
    (hWords : ∀ w ∈ words, IsLetters w)
    (previous : Option Char)
    (hRun : n.run t = some outside)
    (hOccurs : n.Occurs previous words t front keyword after)
    (hLeast :
      ∀ front' keyword' after',
        n.Occurs previous words t front' keyword' after' →
          front.length ≤ front'.length) :
    Cut.ofMarks words previous (n.marking t) =
      Cut.prepend front
        (Cut.occurrence keyword
          (Cut.ofMarks words keyword.getLast? (Text.marking after))) := by
  induction front generalizing n previous t with
  | nil => exact ofMarks_of_occurs hWords hRun hOccurs
  | cons c front ih =>
      obtain rfl : t = c :: (front ++ (keyword ++ after)) := hOccurs.split
      rcases exists_step_of_run hRun with ⟨next, hStep, hRest⟩
      have hNone (keyword' after' : Text) :
          ¬ n.Occurs previous words (c :: (front ++ (keyword ++ after)))
            [] keyword' after' :=
        fun hOther => absurd (hLeast [] keyword' after' hOther) (by simp)
      rw [occurs_cons_iff hStep] at hOccurs
      rw [ofMarks_of_not_occurs hWords hRun hStep hNone,
        ih (some c) hRest hOccurs ?_, Cut.prepend_prepend,
        List.singleton_append]
      intro front' keyword' after' hOther
      have hLe :=
        hLeast (c :: front') keyword' after'
          ((occurs_cons_iff hStep).mpr hOther)
      simpa using hLe

end Nesting

namespace Text

variable {words : List Text}
variable {t front keyword after piece : Text}

/- Where a keyword may end none begins, whatever is in front. -/
theorem ofMarks_of_endsAfter
    (hWords : ∀ w ∈ words, IsLetters w)
    (previous : Option Char)
    (hBalanced : Balanced t)
    (hEnds : EndsAfter t) :
    Cut.ofMarks words previous (marking t) = cutOf words t := by
  cases t with
  | nil =>
      rw [cutOf, marking, Nesting.marking, Cut.ofMarks, Cut.ofMarks]
  | cons c t =>
      rcases Nesting.exists_step_of_run hBalanced with ⟨next, hStep, -⟩
      have hNone
          (previous : Option Char)
          (keyword after : Text) :
          ¬ Nesting.outside.Occurs previous words (c :: t) [] keyword
            after := by
        intro hOccurs
        have hHere : Occurs words (c :: t) [] keyword after :=
          ⟨hOccurs.split, balanced_nil, rfl, hOccurs.spells,
            hOccurs.endsAfter⟩
        exact hHere.ne_nil_of_endsAfter hWords hEnds rfl
      rw [cutOf, marking,
        Nesting.ofMarks_of_not_occurs hWords hBalanced hStep
          (hNone previous),
        Nesting.ofMarks_of_not_occurs hWords hBalanced hStep
          (hNone none)]

/- Behind the first occurrence a text is cut as on its own. -/
theorem cutOf_of_first
    (hWords : ∀ w ∈ words, IsLetters w)
    (hBalanced : Balanced t)
    (hFirst : First words t front keyword after) :
    cutOf words t =
      Cut.prepend front (Cut.occurrence keyword (cutOf words after)) := by
  have hOccurs := hFirst.occurs
  rw [← ofMarks_of_endsAfter hWords keyword.getLast?
    (hOccurs.balanced_after hWords hBalanced) hOccurs.endsAfter]
  refine
    Nesting.ofMarks_of_first hWords none hBalanced
      (occurs_iff_outside.mp hOccurs) ?_
  intro front' keyword' after' hOther
  exact hFirst.least _ _ _ (occurs_iff_outside.mpr hOther)

/- In front of the first occurrence there is none. -/
theorem First.isFree
    (hWords : ∀ w ∈ words, IsLetters w)
    (hFirst : First words t front keyword after) :
    IsFree words front := by
  rw [isFree_iff hWords hFirst.occurs.balanced]
  intro front' keyword' after' hOther
  have hWhole :=
    hOther.append_right (u := keyword ++ after) hWords
      (.inr hFirst.occurs.endsBefore)
  rw [← hFirst.occurs.split] at hWhole
  have hLe := hFirst.least _ _ _ hWhole
  have hPos :=
    List.length_pos_iff.mpr (ne_nil_of_spells hWords hOther.spells)
  have hLength := congrArg List.length hOther.split
  simp only [List.length_append] at hLength
  omega

/-
  The keyword does not occur in a piece between occurrences of
  it. By induction on the length of the text.
-/
theorem isFree_of_mem_pieces
    (hWords : ∀ w ∈ words, IsLetters w)
    (hBalanced : Balanced t)
    (hMem : piece ∈ (cutOf words t).pieces) :
    IsFree words piece := by
  induction hLength : t.length using Nat.strong_induction_on
    generalizing t with
  | _ length ih =>
      by_cases hFree : IsFree words t
      · have hCut : cutOf words t = ⟨t, []⟩ := hFree
        rw [hCut] at hMem
        rw [List.mem_singleton.mp hMem]
        exact hFree
      · rcases exists_first_of_not_isFree hWords hBalanced hFree
          with ⟨front, keyword, after, hFirst⟩
        rw [cutOf_of_first hWords hBalanced hFirst] at hMem
        simp only [Cut.prepend, Cut.occurrence, Cut.pieces,
          List.append_nil, List.map_cons, List.mem_cons] at hMem
        rcases hMem with rfl | hMem
        · exact hFirst.isFree hWords
        · refine
            ih after.length ?_
              (hFirst.occurs.balanced_after hWords hBalanced)
              (List.mem_cons.mpr hMem) rfl
          have hPos :=
            List.length_pos_iff.mpr
              (ne_nil_of_spells hWords hFirst.occurs.spells)
          rw [← hLength, hFirst.occurs.split, List.length_append,
            List.length_append]
          omega

------------------------------------------------------------
-- Pieces and Keywords
------------------------------------------------------------

/- Pieces of a text, each with the keyword that follows it. -/
def interleave : List Text → List Text → Text
  | piece :: pieces, keyword :: keywords =>
      piece ++ (keyword ++ interleave pieces keywords)
  | pieces, keywords => pieces.flatten ++ keywords.flatten

theorem interleave_pieces
    (cut : Cut) :
    interleave cut.pieces (cut.tail.map Prod.fst) = cut.text := by
  rcases cut with ⟨head, tail⟩
  induction tail generalizing head with
  | nil => simp [Cut.pieces, interleave, Cut.text]
  | cons part tail ih =>
      have hRest := ih part.2
      simp only [Cut.pieces, Cut.text] at hRest
      simp [Cut.pieces, interleave, Cut.text, hRest]

/- The ranges of a cut hold its keywords. -/
theorem slices_ranges
    (cut : Cut) :
    (cut.ranges.map fun r => r.slice cut.text) =
      cut.tail.map Prod.fst :=
  Range.map_slice_of_cuts cut.cuts_ranges

/- A text without the keyword is one piece, without a range. -/
theorem splitAtKeyword_of_isFree
    {keyword t : Text}
    (hWords : ∀ w ∈ keyword.words, IsLetters w)
    (hBalanced : Balanced t)
    (hFree : IsFree keyword.words t) :
    Cursor.keywordRanges keyword t = .ok [] ∧
      Cursor.splitAtKeyword keyword t = .ok [t] := by
  have hCut : cutOf keyword.words t = ⟨t, []⟩ := hFree
  rw [Cursor.keywordRanges_eq hWords, if_pos hBalanced,
    Cursor.splitAtKeyword_eq hWords, splitAtKeyword_eq hBalanced, hCut]
  exact ⟨rfl, rfl⟩

------------------------------------------------------------
-- Pieces and Separators
------------------------------------------------------------

variable {separator : Char}

/- What opens or closes something is never at the top level. -/
theorem noneAtTop_of_isDelimiter
    (hDelimiter : IsDelimiter separator)
    (hBalanced : Balanced t) :
    NoneAtTop separator t := by
  induction t, hBalanced using top_induction with
  | last passed hPassed hPasses =>
      exact noneAtTop_of_hidden separator (hidden_of_passes hPasses)
  | next passed c rest hPassed hPlain hRest hPasses ih =>
      intro m hMem
      rw [marking_append_cons rest hPassed hPlain] at hMem
      rcases List.mem_append.mp hMem with hMem | hMem
      · exact
          noneAtTop_of_hidden separator (hidden_of_passes hPasses) m hMem
      · rcases List.mem_cons.mp hMem with rfl | hMem
        · rintro ⟨-, rfl⟩
          exact hPlain hDelimiter
        · exact ih m hMem

theorem IsPiece.splitTop_eq
    (hPiece : IsPiece separator t) :
    splitTop separator t = .ok [t] := by
  rw [Text.splitTop_eq hPiece.balanced,
    topPieces_of_none hPiece.balanced hPiece.none]

/- A balanced text is split into pieces that it is joined of. -/
theorem exists_splitTop_join
    (separator : Char)
    (hBalanced : Balanced t) :
    ∃ pieces,
      splitTop separator t = .ok pieces ∧
        join [separator] pieces = t ∧
        ∀ piece ∈ pieces, IsPiece separator piece := by
  by_cases hDelimiter : IsDelimiter separator
  · have hPiece : IsPiece separator t :=
      ⟨hBalanced, noneAtTop_of_isDelimiter hDelimiter hBalanced⟩
    refine ⟨[t], hPiece.splitTop_eq, rfl, ?_⟩
    intro piece hMem
    rw [List.mem_singleton.mp hMem]
    exact hPiece
  · rcases exists_join_of_run separator hBalanced
      with ⟨first, rest, rfl, hFirst, hNone, hRest⟩
    have hPieces : ∀ piece ∈ first :: rest, IsPiece separator piece := by
      intro piece hMem
      rcases List.mem_cons.mp hMem with rfl | hMem
      · exact ⟨hFirst, hNone⟩
      · exact hRest piece hMem
    exact
      ⟨first :: rest,
        splitTop_join hDelimiter (List.cons_ne_nil first rest) hPieces,
        rfl, hPieces⟩

/- A balanced text that is split into itself is one piece. -/
theorem isPiece_of_splitTop_eq
    (hBalanced : Balanced t)
    (hSplit : splitTop separator t = .ok [t]) :
    IsPiece separator t := by
  rcases exists_splitTop_join separator hBalanced
    with ⟨pieces, hFound, -, hPieces⟩
  obtain rfl : [t] = pieces :=
    Except.ok.inj (hSplit.symm.trans hFound)
  exact hPieces t List.mem_cons_self

end Text

namespace Cursor

/-
  Splitting a balanced text at a separator or at a keyword
  loses nothing of it, and its pieces are balanced and split
  no further. Pieces that split no further are what the text
  is split into that is joined of them, with a separator that
  opens and closes nothing.
-/
theorem split_lossless_final
    {t : Text}
    (hBalanced : Text.Balanced t) :
    (∀ separator,
        ∃ pieces,
          splitTop separator t = .ok pieces ∧
            Text.splitTop separator t = .ok pieces ∧
            join [separator] pieces = t ∧
            ∀ piece ∈ pieces,
              Text.Balanced piece ∧
                splitTop separator piece = .ok [piece]) ∧
      (∀ keyword : Text,
        (∀ w ∈ keyword.words, IsLetters w) →
          ∃ ranges pieces,
            keywordRanges keyword t = .ok ranges ∧
              splitAtKeyword keyword t = .ok pieces ∧
              Text.splitAtKeyword keyword t = .ok pieces ∧
              pieces.length = ranges.length + 1 ∧
              interleave pieces (ranges.map fun r => r.slice t) = t ∧
              ∀ piece ∈ pieces,
                Text.Balanced piece ∧
                  keywordRanges keyword piece = .ok [] ∧
                  splitAtKeyword keyword piece = .ok [piece]) ∧
      ∀ separator pieces,
        ¬ IsDelimiter separator →
          pieces ≠ [] →
            (∀ piece ∈ pieces,
              Text.Balanced piece ∧
                splitTop separator piece = .ok [piece]) →
              splitTop separator (join [separator] pieces) =
                .ok pieces := by
  refine ⟨?_, ?_, ?_⟩
  · intro separator
    rcases exists_splitTop_join separator hBalanced
      with ⟨pieces, hSplit, hJoin, hPieces⟩
    refine
      ⟨pieces, (splitTop_eq separator t).trans hSplit, hSplit, hJoin, ?_⟩
    intro piece hMem
    have hPiece := hPieces piece hMem
    exact
      ⟨hPiece.balanced,
        (splitTop_eq separator piece).trans hPiece.splitTop_eq⟩
  · intro keyword hWords
    have hRanges := keywordRanges_eq hWords t
    have hPieces := (splitAtKeyword_eq hWords t).trans
      (Text.splitAtKeyword_eq hBalanced)
    have hText := interleave_pieces (cutOf keyword.words t)
    have hSlices := slices_ranges (cutOf keyword.words t)
    rw [if_pos hBalanced] at hRanges
    rw [text_cutOf keyword.words hBalanced] at hText hSlices
    refine
      ⟨_, _, hRanges, hPieces, Text.splitAtKeyword_eq hBalanced, ?_, ?_,
        ?_⟩
    · have hLength := congrArg List.length hSlices
      rw [List.length_map, List.length_map] at hLength
      rw [hLength, Cut.pieces, List.length_cons, List.length_map]
    · rw [hSlices]
      exact hText
    · intro piece hMem
      have hPiece := balanced_of_mem_pieces hWords hBalanced hMem
      exact
        ⟨hPiece,
          splitAtKeyword_of_isFree hWords hPiece
            (isFree_of_mem_pieces hWords hBalanced hMem)⟩
  · intro separator pieces hPlain hNotNil hPieces
    rw [splitTop_eq]
    refine splitTop_join hPlain hNotNil fun piece hMem => ?_
    rcases hPieces piece hMem with ⟨hPiece, hSplit⟩
    rw [splitTop_eq] at hSplit
    exact isPiece_of_splitTop_eq hPiece hSplit

/- A keyword that repeats its word, in a list of two texts. -/
theorem split_lossless_final_repeated :
    keywordRanges "and and".toList
          "'a,' and and(b and and c), and  AND [,]".toList =
        .ok [⟨5, 12⟩, ⟨27, 35⟩] ∧
      interleave
          ["'a,' ".toList, "(b and and c), ".toList, " [,]".toList]
          ["and and".toList, "and  AND".toList] =
        "'a,' and and(b and and c), and  AND [,]".toList ∧
      (∀ piece ∈
          ["'a,' ".toList, "(b and and c), ".toList, " [,]".toList],
        splitAtKeyword "and and".toList piece = .ok [piece]) ∧
      splitTop ',' "'a,' and and(b and and c), and  AND [,]".toList =
        .ok
          ["'a,' and and(b and and c)".toList,
            " and  AND [,]".toList] := by
  have hBalanced :
      Text.Balanced "'a,' and and(b and and c), and  AND [,]".toList := by
    decide +kernel
  have hSplit :
      Text.splitTop ',' "'a,' and and(b and and c), and  AND [,]".toList =
        .ok
          ["'a,' and and(b and and c)".toList,
            " and  AND [,]".toList] := by
    decide +kernel
  have hCut :
      Text.splitAtKeyword "and and".toList
          "'a,' and and(b and and c), and  AND [,]".toList =
        .ok ["'a,' ".toList, "(b and and c), ".toList, " [,]".toList] := by
    decide +kernel
  have hRanges :
      Text.keywordRanges "and and".toList
          "'a,' and and(b and and c), and  AND [,]".toList =
        .ok [⟨5, 12⟩, ⟨27, 35⟩] := by
    decide +kernel
  have hLetters : ∀ w ∈ words "and and".toList, IsLetters w := by decide
  rcases split_lossless_final hBalanced with ⟨hTop, hKeyword, hJoin⟩
  rcases hKeyword "and and".toList hLetters
    with ⟨ranges, pieces, hFound, -, hPieces, -, hText, hFinal⟩
  obtain rfl := Except.ok.inj (hCut.symm.trans hPieces)
  rw [← keywordRanges_eq_keywordRanges hLetters, hFound] at hRanges
  obtain rfl := Except.ok.inj hRanges
  refine ⟨hFound, hText, fun piece hMem => (hFinal piece hMem).2.2, ?_⟩
  rcases hTop ',' with ⟨parts, -, hParts, hWhole, hEach⟩
  obtain rfl := Except.ok.inj (hSplit.symm.trans hParts)
  rw [← hWhole]
  exact hJoin ',' _ (by decide) (List.cons_ne_nil _ _) hEach

end Cursor

end SqlSelect
