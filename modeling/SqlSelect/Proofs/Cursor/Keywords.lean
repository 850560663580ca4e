import SqlSelect.Proofs.Cursor.TopLevel
import SqlSelect.Proofs.Nesting.Ranges

/-
  The ranges of a keyword that a cursor finds. It moves over
  what is in quotes, brackets and parentheses, but looks at
  the text itself in front of each character and behind it.
  The ranges are still those at which the text is cut, and so
  those of all keywords among the marks of the text.

  Main statements:
    * `Text.rangeAt?_eq`
    * `Cursor.finds_of_balanced`
    * `Cursor.keywordRanges_eq`
    * `Cursor.keywordRanges_iff_marks`
-/

namespace SqlSelect

open Text

------------------------------------------------------------
-- Looks at the Text
------------------------------------------------------------

namespace Text

variable {keyword t front behind : Text}

/- A text without its blanks begins as its first word does. -/
theorem head?_trimStart_eq
    (t : Text) :
    (trimStart t).head? = (words t).head?.bind List.head? := by
  induction t with
  | nil => rfl
  | cons c t ih =>
      cases hBlank : SqlSelect.isBlank c with
      | true =>
          have hWords : words (c :: t) = words t := by
            simp [words, pieces, hBlank]
          rw [hWords, ← ih, trimStart, List.dropWhile_cons_of_pos hBlank,
            trimStart]
      | false =>
          rw [trimStart_of_head hBlank, words, pieces, hBlank]
          cases pieces SqlSelect.isBlank t <;> rfl

/- What is in front of a byte between two texts, and behind it. -/
theorem mayBegin_iff
    (front behind : Text) :
    MayBegin (front ++ behind) (byteSize front) ↔
      EndsBefore front.getLast? := by
  have hCuts := Range.cuts_front (List.prefix_append front behind)
  rw [MayBegin, hCuts.2]

theorem mayStop_iff
    (front behind : Text) :
    MayStop (front ++ behind) (byteSize front) ↔ EndsAfter behind := by
  rw [MayStop, (Range.cuts_behind front behind).2]

/- Words of which the first begins with another letter are nowhere. -/
theorem delimitedLength?_eq_none_of_first
    {first c : Char}
    {word : Text}
    {words : List Text}
    (hOther : ¬ SameWord [c] [first]) :
    delimitedLength? ((first :: word) :: words) (c :: t) = none := by
  have hStart : startsWord (first :: word) (c :: t) = false := by
    rw [startsWord, List.length_cons, List.take_succ_cons]
    simp only [beq_eq_false_iff_ne, ne_eq, foldCase, List.map_cons,
      List.cons.injEq, not_and]
    intro hSame
    exact absurd (congrArg (fun d => [d]) hSame) hOther
  simp [delimitedLength?, keywordLength?, hStart]

/- The keyword stops where its spelling does. -/
theorem keywordStop?_eq :
    keywordStop? keyword (front ++ behind) (byteSize front) =
      (keywordLength? keyword.words behind).map fun length =>
        byteSize front + byteSize (behind.take length) := by
  rw [keywordStop?, (Range.cuts_behind front behind).2]

/-
  The looks at the text find the keyword that begins with the
  character, as the words of the keyword are looked for.
-/
theorem rangeAt?_eq
    {found : List Range}
    {c : Char}
    (hFree : ∀ r ∈ found.getLast?, r.stop ≤ byteSize front) :
    rangeAt? keyword (front ++ c :: behind) found (byteSize front) c =
      if EndsBefore front.getLast? then
        (delimitedLength? keyword.words (c :: behind)).map fun length =>
          ⟨byteSize front,
            byteSize front + byteSize ((c :: behind).take length)⟩
      else none := by
  have hStop (length : Nat) :
      MayStop (front ++ c :: behind)
          (byteSize front + byteSize ((c :: behind).take length)) ↔
        EndsAfter ((c :: behind).drop length) := by
    rw [← mayStop_iff (front ++ (c :: behind).take length),
      byteSize_append, List.append_assoc, List.take_append_drop]
  have hFound :
      (found.getLast?.any fun r => decide (byteSize front < r.stop)) =
        false := by
    cases hLast : found.getLast? with
    | none => rfl
    | some r => simpa using hFree r hLast
  rw [rangeAt?, head?_trimStart_eq]
  cases hWords : keyword.words with
  | nil => simp [delimitedLength?, keywordLength?]
  | cons word words =>
      have hMem : word ∈ keyword.words := hWords ▸ List.mem_cons_self
      cases word with
      | nil => exact absurd rfl (ne_nil_of_mem_words hMem)
      | cons first word =>
          simp only [List.head?_cons, Option.bind_some, hFound,
            Bool.false_eq_true, if_false, mayBegin_iff]
          by_cases hSame : SameWord [c] [first]
          · by_cases hBefore : EndsBefore front.getLast?
            · -- The length counts if the text ends a word there.
              have hBoth := And.intro hSame hBefore
              rw [if_neg (by rwa [not_or, not_not, not_not]),
                if_pos hBefore, keywordStop?_eq, hWords, delimitedLength?]
              cases
                  keywordLength? ((first :: word) :: words)
                    (c :: behind) with
              | none => rfl
              | some length =>
                  simp only [Option.map_some, hStop, Option.filter_some,
                    decide_eq_true_eq]
                  split_ifs <;> rfl
            · rw [if_pos (.inr hBefore), if_neg hBefore]
          · rw [if_pos (.inl hSame),
              delimitedLength?_eq_none_of_first hSame]
            split_ifs <;> rfl

end Text

------------------------------------------------------------
-- Steps of the Walk
------------------------------------------------------------

namespace Cursor

variable {keyword t front passed rest : Text}
variable {found : List Range}
variable {c : Char}

/- The ranges found, brought forward over a character. -/
def takeRange
    (keyword : Text)
    (found : List Range)
    (s _after : Cursor)
    (next : Nat × Char) : List Range :=
  found ++ (rangeAt? keyword s.input found next.1 next.2).toList

/- The walk keeps the ranges found as its account. -/
theorem keywordRangesFrom_eq_overTop
    (keyword : Text)
    (found : List Range)
    (s : Cursor) :
    keywordRangesFrom keyword found s =
      overTop (takeRange keyword) (fun found _ _ => found) found s := by
  fun_induction keywordRangesFrom keyword found s with
  | case1 found s e after hNext => rw [overTop_step, hNext]
  | case2 found s after hNext => rw [overTop_step, hNext]
  | case3 found s start c after hNext ih =>
      rw [overTop_step, hNext]
      exact ih

/- Over a character the ranges found are brought forward. -/
theorem keywordRangesFrom_of_next
    (keyword front rest : Text)
    (found : List Range)
    (hPassed : Text.Balanced passed)
    (hPasses : Nesting.outside.Passes (fun _ => true) passed)
    (hPlain : ¬ IsDelimiter c) :
    keywordRangesFrom keyword found
        ⟨front ++ (passed ++ c :: rest), passed ++ c :: rest, 0⟩ =
      keywordRangesFrom keyword
        (found ++
          (rangeAt? keyword (front ++ (passed ++ c :: rest)) found
            (byteSize (front ++ passed)) c).toList)
        ⟨front ++ (passed ++ c :: rest), rest, 0⟩ := by
  simp only [keywordRangesFrom_eq_overTop]
  exact overTop_of_next front rest hPassed hPasses hPlain

/- At the end of the text they are all. -/
theorem keywordRangesFrom_of_end
    (front : Text)
    (hPassed : Text.Balanced passed)
    (hPasses : Nesting.outside.Passes (fun _ => true) passed) :
    keywordRangesFrom keyword found ⟨front ++ passed, passed, 0⟩ =
      .ok found := by
  rw [keywordRangesFrom_eq_overTop, overTop_of_end front hPassed hPasses]

/- Over the characters of a range that was found the walk goes on. -/
theorem keywordRangesFrom_within
    {r : Range}
    (keyword rest : Text)
    (found : List Range)
    (hPlain : ∀ d ∈ passed, ¬ IsDelimiter d)
    (hStop : byteSize (front ++ passed) ≤ r.stop) :
    keywordRangesFrom keyword (found ++ [r])
        ⟨front ++ (passed ++ rest), passed ++ rest, 0⟩ =
      keywordRangesFrom keyword (found ++ [r])
        ⟨front ++ (passed ++ rest), rest, 0⟩ := by
  induction passed generalizing front with
  | nil => rfl
  | cons d passed ih =>
      have hNext :=
        keywordRangesFrom_of_next keyword front (passed ++ rest)
          (found ++ [r]) balanced_nil (Nesting.passes_nil _ _)
          (hPlain d List.mem_cons_self)
      have hSize := d.utf8Size_pos
      have hLess : byteSize front < r.stop := by
        rw [byteSize_append, byteSize_cons] at hStop
        omega
      have hNone :
          rangeAt? keyword (front ++ (d :: passed ++ rest))
              (found ++ [r]) (byteSize front) d = none := by
        rw [rangeAt?, List.getLast?_concat]
        simp only [Option.any_some, decide_eq_true hLess, if_true]
        split <;> rfl
      have hText :
          front ++ (d :: passed ++ rest) =
            (front ++ [d]) ++ (passed ++ rest) := by
        simp
      simp only [List.nil_append, List.append_nil] at hNext
      simp only [List.cons_append] at hNone hText ⊢
      rw [hNext, hNone, Option.toList_none, List.append_nil, hText]
      refine
        ih (fun e hMem => hPlain e (List.mem_cons_of_mem d hMem)) ?_
      rwa [List.append_assoc, List.singleton_append]

/-
  In front of the rest of a text a cursor finds the ranges at
  which the rest is cut, whatever is in front and has been
  found there.
-/
def Finds
    (keyword rest : Text) : Prop :=
  ∀ front found,
    (∀ r ∈ List.getLast? found, r.stop ≤ byteSize front) →
      keywordRangesFrom keyword found ⟨front ++ rest, rest, 0⟩ =
        .ok
          (found ++
            (Cut.ofMarks keyword.words front.getLast?
              (marking rest)).rangesAt (byteSize front))

/- The looks at the text find what is cut at a character. -/
theorem rangeAt?_eq_map
    (hBalanced : Text.Balanced (c :: rest))
    (hPlain : ¬ IsDelimiter c)
    (hFree : ∀ r ∈ found.getLast?, r.stop ≤ byteSize front) :
    rangeAt? keyword (front ++ c :: rest) found (byteSize front) c =
      (occurrenceLength? keyword.words front.getLast?
          (marking (c :: rest))).map fun length =>
        ⟨byteSize front,
          byteSize front + byteSize ((c :: rest).take length)⟩ := by
  have hTop : Nesting.outside.IsTop c := ⟨rfl, hPlain⟩
  have hText := text_marking hBalanced
  rw [rangeAt?_eq hFree]
  rw [marking, Nesting.marking_cons rest (Nesting.step_of_plain rfl hPlain)]
    at hText ⊢
  rw [occurrenceLength?, hText]
  simp only [decide_eq_true hTop, true_and]
  split_ifs <;> rfl

/- Where the text is not cut the walk goes on behind the character. -/
theorem keywordRangesFrom_behind
    (hPlain : ¬ IsDelimiter c)
    (hFree : ∀ r ∈ found.getLast?, r.stop ≤ byteSize front)
    (hNone :
      occurrenceLength? keyword.words front.getLast?
        (marking (c :: rest)) = none)
    (hFinds : Finds keyword rest) :
    keywordRangesFrom keyword found ⟨front ++ c :: rest, rest, 0⟩ =
      .ok
        (found ++
          (Cut.ofMarks keyword.words front.getLast?
            (marking (c :: rest))).rangesAt (byteSize front)) := by
  have hStep := Nesting.step_of_plain (n := Nesting.outside) rfl hPlain
  have hSize := byteSize_append front [c]
  have hNext :=
    hFinds (front ++ [c]) found fun r hMem =>
      hSize ▸ Nat.le_add_right_of_le (hFree r hMem)
  rw [List.append_assoc, List.singleton_append,
    List.getLast?_append_of_ne_nil _ (List.cons_ne_nil c []),
    List.getLast?_singleton, hSize] at hNext
  rw [marking, Nesting.marking_cons rest hStep] at hNone ⊢
  rw [Cut.ofMarks, hNone, Cut.rangesAt_prepend]
  exact hNext

/- Where the text is cut the walk goes on behind the keyword. -/
theorem keywordRangesFrom_behind_occurrence
    {k behind : Text}
    (hWords : ∀ w ∈ keyword.words, IsLetters w)
    (hBalanced : Text.Balanced (c :: rest))
    (hOccurs :
      Nesting.outside.Occurs front.getLast? keyword.words (c :: rest) []
        k behind)
    (hFinds : Finds keyword behind) :
    keywordRangesFrom keyword
        (found ++ [⟨byteSize front, byteSize front + byteSize k⟩])
        ⟨front ++ c :: rest, rest, 0⟩ =
      .ok
        (found ++
          (Cut.ofMarks keyword.words front.getLast?
            (marking (c :: rest))).rangesAt (byteSize front)) := by
  rw [marking, Nesting.ofMarks_of_occurs hWords hBalanced hOccurs,
    Cut.rangesAt_occurrence]
  cases k with
  | nil => exact absurd rfl (ne_nil_of_spells hWords hOccurs.spells)
  | cons d k =>
      obtain ⟨rfl, rfl⟩ : c = d ∧ rest = k ++ behind :=
        List.cons.inj hOccurs.split
      have hPlain := plain_of_spells hWords hOccurs.spells
      have hSize := byteSize_append front (c :: k)
      have hText :
          front ++ c :: (k ++ behind) =
            (front ++ [c]) ++ (k ++ behind) := by
        simp
      -- The rest of the keyword is within the range found last.
      have hWithin :
          byteSize ((front ++ [c]) ++ k) ≤
            Range.stop
              ⟨byteSize front, byteSize front + byteSize (c :: k)⟩ := by
        rw [← hSize, List.append_assoc]
        exact Nat.le_refl _
      have hNext :=
        hFinds (front ++ c :: k)
          (found ++
            [⟨byteSize front, byteSize front + byteSize (c :: k)⟩])
          (by
            rw [List.getLast?_concat, hSize]
            rintro r ⟨⟩
            exact Nat.le_refl _)
      rw [List.append_assoc, List.append_assoc,
        List.getLast?_append_of_ne_nil _ (List.cons_ne_nil c k),
        hSize] at hNext
      rw [hText,
        keywordRangesFrom_within keyword behind found
          (fun e hMem => hPlain e (List.mem_cons_of_mem c hMem)) hWithin,
        ← hText]
      exact hNext

/-
  At a character at the top level the walk finds the keyword
  that the text is cut at there, and those behind it.
-/
theorem keywordRangesFrom_at
    (hWords : ∀ w ∈ keyword.words, IsLetters w)
    (hBalanced : Text.Balanced (c :: rest))
    (hPlain : ¬ IsDelimiter c)
    (hFree : ∀ r ∈ found.getLast?, r.stop ≤ byteSize front)
    (hLater :
      ∀ behind,
        behind.length ≤ rest.length → Text.Balanced behind →
          Finds keyword behind) :
    keywordRangesFrom keyword
        (found ++
          (rangeAt? keyword (front ++ c :: rest) found (byteSize front)
            c).toList)
        ⟨front ++ c :: rest, rest, 0⟩ =
      .ok
        (found ++
          (Cut.ofMarks keyword.words front.getLast?
            (marking (c :: rest))).rangesAt (byteSize front)) := by
  rw [rangeAt?_eq_map hBalanced hPlain hFree]
  cases hFound :
      occurrenceLength? keyword.words front.getLast?
        (marking (c :: rest)) with
  | none =>
      have hRest :=
        (balanced_append_cons_iff balanced_nil hPlain).mp hBalanced
      rw [Option.map_none, Option.toList_none, List.append_nil]
      exact
        keywordRangesFrom_behind hPlain hFree hFound
          (hLater rest (Nat.le_refl _) hRest)
  | some length =>
      rcases
          Nesting.exists_occurs_of_occurrenceLength? hWords hBalanced
            hFound
        with ⟨k, behind, hOccurs, rfl⟩
      have hSplit : c :: rest = k ++ behind := hOccurs.split
      have hBehind : Text.Balanced behind := by
        rw [hSplit] at hBalanced
        exact
          (balanced_append_iff
            (balanced_of_plain
              (plain_of_spells hWords hOccurs.spells))).mp hBalanced
      have hLength : behind.length ≤ rest.length := by
        have hPos :=
          List.length_pos_iff.mpr (ne_nil_of_spells hWords hOccurs.spells)
        have hBoth := congrArg List.length hSplit
        rw [List.length_cons, List.length_append] at hBoth
        omega
      rw [Option.map_some, Option.toList_some, hSplit, List.take_left,
        ← hSplit]
      exact
        keywordRangesFrom_behind_occurrence hWords hBalanced hOccurs
          (hLater behind hLength hBehind)

/-
  Behind what is in front of it the cursor finds the ranges at
  which the rest of the text is cut. By induction on the
  length of the rest.
-/
theorem finds_of_balanced
    (hWords : ∀ w ∈ keyword.words, IsLetters w)
    (hBalanced : Text.Balanced rest) :
    Finds keyword rest := by
  induction hLength : rest.length using Nat.strong_induction_on
    generalizing rest with
  | _ length ih =>
      intro front found hFree
      rcases Stop.exists_passes (fun _ => true) hBalanced
        with ⟨passed, behind, rfl, hPassed, hPasses, hHalts⟩
      have hBehind := (balanced_append_iff hPassed).mp hBalanced
      have hCut :
          (Cut.ofMarks keyword.words front.getLast?
              (marking (passed ++ behind))).rangesAt (byteSize front) =
            (Cut.ofMarks keyword.words (front ++ passed).getLast?
              (marking behind)).rangesAt (byteSize (front ++ passed)) := by
        rw [marking_append _ hPassed,
          Cut.ofMarks_hidden_append _ (hidden_of_passes hPasses),
          text_marking hPassed, Cut.rangesAt_prepend, byteSize_append,
          List.getLast?_append, Cut.lastOr]
      rw [hCut]
      rcases hHalts with rfl | ⟨c, behind, rfl, hPlain, -⟩
      · rw [List.append_nil, keywordRangesFrom_of_end front hPassed hPasses]
        simp [marking, Nesting.marking, Cut.ofMarks, Cut.rangesAt,
          Cut.rangesFrom]
      · have hText :
            front ++ (passed ++ c :: behind) =
              (front ++ passed) ++ c :: behind :=
          (List.append_assoc ..).symm
        rw [keywordRangesFrom_of_next _ _ _ _ hPassed hPasses hPlain,
          hText]
        refine keywordRangesFrom_at hWords hBehind hPlain ?_ ?_
        · intro r hMem
          rw [byteSize_append]
          exact Nat.le_add_right_of_le (hFree r hMem)
        · intro later hLe hLater
          refine ih later.length ?_ hLater rfl
          rw [← hLength, List.length_append, List.length_cons]
          omega

/- The cursor finds the ranges at which the text is cut. -/
theorem keywordRanges_eq
    (hWords : ∀ w ∈ keyword.words, IsLetters w)
    (t : Text) :
    keywordRanges keyword t =
      if Text.Balanced t then .ok (cutOf keyword.words t).ranges
      else .error (.unbalanced t) := by
  split_ifs with hBalanced
  · rw [← Cut.rangesAt_zero]
    exact finds_of_balanced hWords hBalanced [] [] nofun
  · rw [keywordRanges, keywordRangesFrom_eq_overTop]
    exact overTop_of_not_balanced [] hBalanced

theorem keywordRanges_eq_keywordRanges
    (hWords : ∀ w ∈ keyword.words, IsLetters w)
    (t : Text) :
    keywordRanges keyword t = Text.keywordRanges keyword t := by
  rw [keywordRanges_eq hWords, Text.keywordRanges, cutAtKeyword,
    marked_eq]
  split_ifs <;> rfl

/-
  The ranges of a keyword whose first word does not come again
  in it are those of all its spellings among the marks of the
  text, one behind the other, if the text is balanced.
-/
theorem keywordRanges_iff_marks
    {first : Text}
    {words : List Text}
    (hKeyword : keyword.words = first :: words)
    (hWords : ∀ w ∈ first :: words, IsLetters w)
    (hOther : ∀ w ∈ words, ¬ SameWord w first) :
    keywordRanges keyword t = Text.keywordRanges keyword t ∧
      (¬ Text.Balanced t →
        keywordRanges keyword t = .error (.unbalanced t)) ∧
      (Text.Balanced t →
        ∃ ranges,
          keywordRanges keyword t = .ok ranges ∧
            ranges.Pairwise (fun r later => r.start < later.start) ∧
            (∀ r,
              r ∈ ranges ↔
                ∃ before covered after,
                  marking t = before ++ (covered ++ after) ∧
                    Mark.IsKeyword (first :: words) before covered
                      after ∧
                    r =
                      ⟨byteSize (Mark.text before),
                        byteSize (Mark.text before) +
                          byteSize (Mark.text covered)⟩) ∧
            ∀ before covered after,
              marking t = before ++ (covered ++ after) →
                Mark.IsKeyword (first :: words) before covered after →
                ∀ m ∈ covered, m.top = true) := by
  have hLetters : ∀ w ∈ keyword.words, IsLetters w :=
    hKeyword ▸ hWords
  have hRanges := keywordRanges_eq hLetters t
  refine ⟨keywordRanges_eq_keywordRanges hLetters t, ?_, ?_⟩
  · intro hNot
    rw [hRanges, if_neg hNot]
  · intro hBalanced
    rw [if_pos hBalanced] at hRanges
    refine ⟨_, hRanges, ?_, ?_, ?_⟩
    · rw [keywordRanges_eq_keywordRanges hLetters] at hRanges
      have hOrder := inOrder_keywordRanges hRanges
      refine hOrder.sorted.imp_of_mem fun hMem _ hLe => ?_
      exact lt_of_lt_of_le (hOrder.inside _ hMem).1 hLe
    · intro r
      rw [hKeyword]
      exact mem_ranges_cutOf_iff hWords hOther hBalanced
    · intro before covered after
      exact top_of_isKeyword hWords hBalanced

/- The keywords behind what is in parentheses and in brackets. -/
theorem keywordRanges_iff_marks_pair :
    keywordRanges "order BY".toList
        "f( order by )Order by [ order by ] order  by(c)".toList =
      .ok [⟨13, 21⟩, ⟨35, 44⟩] ∧
    ∃ before covered after,
      marking "f( order by )Order by [ order by ] order  by(c)".toList =
        before ++ (covered ++ after) ∧
      Mark.IsKeyword ["order".toList, "BY".toList] before covered after ∧
      (∀ m ∈ covered, m.top = true) ∧
      (⟨35, 44⟩ : Range) =
        ⟨byteSize (Mark.text before),
          byteSize (Mark.text before) +
            byteSize (Mark.text covered)⟩ := by
  have hFound :
      Text.keywordRanges "order BY".toList
          "f( order by )Order by [ order by ] order  by(c)".toList =
        .ok [⟨13, 21⟩, ⟨35, 44⟩] := by
    decide +kernel
  have hBalanced :
      Text.Balanced
        "f( order by )Order by [ order by ] order  by(c)".toList := by
    decide +kernel
  have hKeyword :
      words "order BY".toList = ["order".toList, "BY".toList] := by
    decide
  rcases keywordRanges_iff_marks hKeyword (by decide) (by decide) with
    ⟨hSame, -, hRanges⟩
  rw [hFound] at hSame
  rcases hRanges hBalanced with ⟨ranges, hEq, -, hMem, hTop⟩
  obtain rfl : [⟨13, 21⟩, ⟨35, 44⟩] = ranges :=
    Except.ok.inj (hSame.symm.trans hEq)
  rcases (hMem ⟨35, 44⟩).mp (by simp) with
    ⟨before, covered, after, hMarks, hKeyword, hRange⟩
  exact
    ⟨hSame, before, covered, after, hMarks, hKeyword,
      hTop before covered after hMarks hKeyword, hRange⟩

end Cursor

end SqlSelect
