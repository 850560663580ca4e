import SqlSelect.Nesting.Section
import SqlSelect.Nesting.Words
import SqlSelect.Proofs.Recall.Shapes

/-
  Ranges that are cut out of a text. The ranges of keywords,
  of separators and of words all come from a text that is cut
  into pieces, so one statement about cuts covers the three:
  the ranges lie in the text in order, on the boundaries of
  characters, and so do the gaps between them, which hold the
  pieces.

  Main statements:
    * `Range.Cuts`
    * `Range.InOrder`
    * `Cut.inOrder_ranges`
    * `Cut.cuts_gaps`
    * `Text.inOrder_keywordRanges`
    * `Text.inOrder_topWords`
    * `Text.cuts_through`
    * `Text.exists_gaps_splitTop`
    * `Text.exists_clause_section?`
-/

namespace SqlSelect

------------------------------------------------------------
-- Boundaries
------------------------------------------------------------

namespace Text

/- A character begins at the byte, or the text ends there. -/
def IsBoundary
    (t : Text)
    (byte : Nat) : Prop :=
  ∃ before after : Text, t = before ++ after ∧ byte = byteSize before

variable {t : Text}

theorem isBoundary_front
    {front : Text}
    (hPrefix : front <+: t) :
    t.IsBoundary (byteSize front) := by
  rcases hPrefix with ⟨after, rfl⟩
  exact ⟨front, after, rfl, rfl⟩

theorem byteSize_front_le
    {front : Text}
    (hPrefix : front <+: t) :
    byteSize front ≤ byteSize t := by
  rcases hPrefix with ⟨after, rfl⟩
  simp

theorem byteSize_pos
    (hSome : t ≠ []) :
    0 < byteSize t := by
  cases t with
  | nil => exact absurd rfl hSome
  | cons c t =>
      have hSize := c.utf8Size_pos
      rw [byteSize_cons]
      omega

/- Cutting a list leaves a piece of it at least. -/
theorem pieces_ne_nil
    {α : Type}
    (isCut : α → Bool)
    (list : List α) :
    pieces isCut list ≠ [] := by
  fun_cases pieces isCut list with
  | case1 => exact List.cons_ne_nil _ _
  | case2 => exact List.cons_ne_nil _ _
  | case3 a rest _ => cases pieces isCut rest <;> simp [pushFront]

/- Marking a text that can be marked keeps its characters. -/
theorem text_of_marked
    {marked : List Mark}
    (hMarked : t.marked = .ok marked) :
    Mark.text marked = t := by
  rw [Text.marked] at hMarked
  split at hMarked
  · rename_i found hFound
    cases hMarked
    exact Nesting.text_of_marks? hFound
  · cases hMarked

end Text

------------------------------------------------------------
-- Slices
------------------------------------------------------------

namespace Range

/- The range lies in the text and holds the piece. -/
def Cuts
    (r : Range)
    (t piece : Text) : Prop :=
  r.Within t ∧ r.slice t = piece

theorem slice_of_stop_eq_zero
    {r : Range}
    (hStop : r.stop = 0)
    (t : Text) :
    r.slice t = [] := by
  cases t with
  | nil => rfl
  | cons c t => simp [slice, hStop]

/-
  The slice of a part of a text is the part, by induction on
  what is in front of it and then on the part.
-/
theorem slice_append
    (before covered after : Text) :
    slice
        ⟨Text.byteSize before, Text.byteSize before + Text.byteSize covered⟩
        (before ++ covered ++ after) =
      covered := by
  induction before with
  | nil =>
      induction covered with
      | nil => exact slice_of_stop_eq_zero rfl _
      | cons c covered ih =>
          have hSize := c.utf8Size_pos
          have hStop :
              0 + (c.utf8Size + Text.byteSize covered) ≠ 0 := by
            omega
          simp only [List.nil_append, Text.byteSize_nil] at ih ⊢
          simp only [List.cons_append, slice, Text.byteSize_cons,
            if_neg hStop, if_true]
          rw [Nat.zero_sub, Nat.zero_add, Nat.add_sub_cancel_left]
          rw [Nat.zero_add] at ih
          rw [ih]
  | cons c before ih =>
      have hSize := c.utf8Size_pos
      simp only [List.cons_append, Text.byteSize_cons, slice]
      rw [if_neg (by omega), if_neg (by omega), Nat.add_sub_cancel_left,
        Nat.add_assoc, Nat.add_sub_cancel_left]
      exact ih

theorem cuts_of_append
    {t before covered after : Text}
    (hText : t = before ++ covered ++ after) :
    Cuts
      ⟨Text.byteSize before, Text.byteSize before + Text.byteSize covered⟩
      t covered := by
  subst hText
  exact
    ⟨⟨before, covered, after, rfl, rfl, by simp⟩,
      slice_append before covered after⟩

/- The start of a text up to the end of a part. -/
theorem cuts_front
    {t front : Text}
    (hPrefix : front <+: t) :
    Cuts ⟨0, Text.byteSize front⟩ t front := by
  rcases hPrefix with ⟨after, rfl⟩
  have hSplit : front ++ after = [] ++ front ++ after := rfl
  simpa using cuts_of_append hSplit

/- The end of a text from the end of a part on. -/
theorem cuts_behind
    (front after : Text) :
    Cuts ⟨Text.byteSize front, Text.byteSize (front ++ after)⟩
      (front ++ after) after := by
  rw [Text.byteSize_append]
  exact cuts_of_append (List.append_nil _).symm

variable {r : Range}
variable {t piece : Text}

/- The ends of a range in a text are boundaries in order. -/
theorem Within.ends
    (hWithin : r.Within t) :
    r.start ≤ r.stop ∧ r.stop ≤ Text.byteSize t ∧
      t.IsBoundary r.start ∧ t.IsBoundary r.stop := by
  rcases hWithin with ⟨before, covered, after, rfl, hStart, hStop⟩
  rw [hStart, hStop]
  refine ⟨by simp, by simp, ?_, ?_⟩
  · exact
      Text.isBoundary_front
        ((List.prefix_append before covered).trans
          (List.prefix_append _ after))
  · exact Text.isBoundary_front (List.prefix_append _ after)

/- A range holds the text between its ends. -/
theorem Cuts.exists_split
    (hCuts : r.Cuts t piece) :
    ∃ before after,
      t = before ++ piece ++ after ∧
        r.start = Text.byteSize before ∧
        r.stop = Text.byteSize before + Text.byteSize piece := by
  rcases r with ⟨start, stop⟩
  rcases hCuts with ⟨⟨before, covered, after, rfl, rfl, rfl⟩, hSlice⟩
  simp only [Text.byteSize_append] at hSlice ⊢
  rw [slice_append] at hSlice
  subst hSlice
  exact ⟨before, after, rfl, rfl, rfl⟩

theorem Cuts.start_lt_stop
    (hCuts : r.Cuts t piece)
    (hSome : piece ≠ []) :
    r.start < r.stop := by
  rcases hCuts.exists_split with ⟨before, after, -, hStart, hStop⟩
  have hSize := Text.byteSize_pos hSome
  omega

------------------------------------------------------------
-- Ranges in Order
------------------------------------------------------------

/-
  The ranges hold characters of the text, and none of them
  begins before one in front of it ends.
-/
structure InOrder
    (t : Text)
    (ranges : List Range) : Prop where
  inside :
    ∀ r ∈ ranges,
      r.start < r.stop ∧ r.stop ≤ Text.byteSize t ∧
        t.IsBoundary r.start ∧ t.IsBoundary r.stop
  sorted : ranges.Pairwise fun r later => r.stop ≤ later.start

/-
  What is between the ranges: from a byte to the first of
  them, from each to the next, and from the last to a byte.
-/
def gaps
    (start stop : Nat) : List Range → List Range
  | [] => [⟨start, stop⟩]
  | r :: ranges => ⟨start, r.start⟩ :: gaps r.stop stop ranges

/-
  The byte at which the first of the ranges found begins, or
  `stop` where none was found before it.
-/
def firstStart
    (stop : Nat) : List (Option Range) → Nat
  | [] => stop
  | none :: found => firstStart stop found
  | some r :: found => min r.start (firstStart stop found)

end Range

------------------------------------------------------------
-- Cuts
------------------------------------------------------------

namespace Cut

/- The text of the occurrences and of what follows them. -/
def tailText
    (tail : List (Text × Text)) : Text :=
  tail.flatMap fun (keyword, after) => keyword ++ after

/-
  The ranges hold the keywords, by induction on them with the
  text in front of them generalised.
-/
theorem cuts_rangesFrom
    {t : Text}
    (before : Text)
    {tail : List (Text × Text)}
    (hText : t = before ++ tailText tail) :
    List.Forall₂ (fun r keyword => Range.Cuts r t keyword)
      (rangesFrom (Text.byteSize before) tail) (tail.map Prod.fst) := by
  induction tail generalizing before with
  | nil => exact .nil
  | cons part tail ih =>
      rcases part with ⟨keyword, after⟩
      have hSplit :
          t = before ++ keyword ++ (after ++ tailText tail) := by
        simpa [tailText] using hText
      have hRest := ih (before ++ keyword ++ after) (by simpa using hSplit)
      rw [Text.byteSize_append, Text.byteSize_append] at hRest
      exact .cons (Range.cuts_of_append hSplit) hRest

/- The gaps hold the pieces, by the same induction. -/
theorem cuts_gaps_rangesFrom
    {t : Text}
    (before head : Text)
    {tail : List (Text × Text)}
    (hText : t = before ++ head ++ tailText tail) :
    List.Forall₂ (fun r piece => Range.Cuts r t piece)
      (Range.gaps (Text.byteSize before) (Text.byteSize t)
        (rangesFrom (Text.byteSize (before ++ head)) tail))
      (head :: tail.map Prod.snd) := by
  induction tail generalizing before head with
  | nil =>
      have hWhole : t = before ++ head := by
        simpa [tailText] using hText
      subst hWhole
      exact .cons (Range.cuts_behind before head) .nil
  | cons part tail ih =>
      rcases part with ⟨keyword, after⟩
      have hSplit :
          t = before ++ head ++ keyword ++ after ++ tailText tail := by
        simpa [tailText] using hText
      have hRest := ih (before ++ head ++ keyword) after hSplit
      rw [Text.byteSize_append _ keyword,
        Text.byteSize_append _ after, Text.byteSize_append _ keyword]
        at hRest
      rw [Text.byteSize_append before head] at hRest ⊢
      refine .cons (Range.cuts_of_append hText) ?_
      exact hRest

theorem sorted_rangesFrom
    (start : Nat)
    (tail : List (Text × Text)) :
    (∀ r ∈ rangesFrom start tail, start ≤ r.start) ∧
      (rangesFrom start tail).Pairwise
        fun r later => r.stop ≤ later.start := by
  induction tail generalizing start with
  | nil => exact ⟨fun _ h => absurd h List.not_mem_nil, .nil⟩
  | cons part tail ih =>
      rcases part with ⟨keyword, after⟩
      rcases
        ih (start + Text.byteSize keyword + Text.byteSize after)
        with ⟨hBehind, hSorted⟩
      refine ⟨?_, List.pairwise_cons.mpr ⟨?_, hSorted⟩⟩
      · intro r hMem
        rcases List.mem_cons.mp hMem with rfl | hMem
        · exact Nat.le_refl _
        · have hLe := hBehind r hMem
          omega
      · intro r hMem
        have hLe := hBehind r hMem
        change start + Text.byteSize keyword ≤ r.start
        omega

variable {cut : Cut}

theorem cuts_ranges
    (cut : Cut) :
    List.Forall₂ (fun r keyword => Range.Cuts r cut.text keyword)
      cut.ranges (cut.tail.map Prod.fst) :=
  cuts_rangesFrom cut.head rfl

/- The gaps between the ranges of a cut hold its pieces. -/
theorem cuts_gaps
    (cut : Cut) :
    List.Forall₂ (fun r piece => Range.Cuts r cut.text piece)
      (Range.gaps 0 (Text.byteSize cut.text) cut.ranges) cut.pieces :=
  cuts_gaps_rangesFrom [] cut.head rfl

theorem exists_cuts_of_mem_ranges
    {r : Range}
    (hMem : r ∈ cut.ranges) :
    ∃ part ∈ cut.tail, r.Cuts cut.text part.1 := by
  rcases List.mem_iff_getElem.mp hMem with ⟨i, hLess, rfl⟩
  have hCuts := List.forall₂_iff_get.mp (cuts_ranges cut)
  have hKeyword : i < (cut.tail.map Prod.fst).length := by
    rw [← hCuts.1]
    exact hLess
  have hPart : i < cut.tail.length := by
    rwa [List.length_map] at hKeyword
  refine ⟨cut.tail[i], List.getElem_mem hPart, ?_⟩
  simpa using hCuts.2 i hLess hKeyword

/- The ranges of a cut lie in its text in order. -/
theorem inOrder_ranges
    (hSome : ∀ part ∈ cut.tail, part.1 ≠ []) :
    Range.InOrder cut.text cut.ranges := by
  refine ⟨?_, (sorted_rangesFrom _ _).2⟩
  intro r hMem
  rcases exists_cuts_of_mem_ranges hMem with ⟨part, hIn, hCuts⟩
  exact ⟨hCuts.start_lt_stop (hSome part hIn), hCuts.1.ends.2⟩

/- What occurs as a keyword is not empty. -/
theorem ne_nil_of_mem_tail_ofMarks
    (words : List Text)
    (previous : Option Char)
    (marked : List Mark) :
    ∀ part ∈ (ofMarks words previous marked).tail, part.1 ≠ [] := by
  fun_induction ofMarks words previous marked with
  | case1 => exact fun _ h => absurd h List.not_mem_nil
  | case2 previous m rest h ih => exact ih
  | case3 previous m rest length h keyword ih =>
      intro part hMem
      rcases List.mem_cons.mp hMem with rfl | hMem
      · exact List.cons_ne_nil _ _
      · exact ih part hMem

/- The cut at a separator that stands between pieces. -/
def ofPieces
    (separator : Char) : List Text → Cut
  | [] => ⟨[], []⟩
  | first :: rest => ⟨first, rest.map fun piece => ([separator], piece)⟩

theorem ofPieces_nil_cons
    (separator : Char)
    {pieces : List Text}
    (hSome : pieces ≠ []) :
    ofPieces separator ([] :: pieces) =
      occurrence [separator] (ofPieces separator pieces) := by
  cases pieces with
  | nil => exact absurd rfl hSome
  | cons first rest => rfl

theorem ofPieces_pushFront
    (separator c : Char)
    (pieces : List Text) :
    ofPieces separator (Text.pushFront c pieces) =
      prepend [c] (ofPieces separator pieces) := by
  cases pieces <;> rfl

theorem map_text_pushFront
    (m : Mark)
    (pieces : List (List Mark)) :
    (Text.pushFront m pieces).map Mark.text =
      Text.pushFront m.char (pieces.map Mark.text) := by
  cases pieces <;> rfl

/- The texts between the separators among some marks. -/
def between
    (separator : Char)
    (marked : List Mark) : List Text :=
  (Text.pieces (fun m => decide (Mark.Is separator m)) marked).map
    Mark.text

theorem between_ne_nil
    (separator : Char)
    (marked : List Mark) :
    between separator marked ≠ [] := by
  rw [between, ne_eq, List.map_eq_nil_iff]
  exact Text.pieces_ne_nil _ marked

/- Cutting at a separator loses nothing of a text. -/
theorem text_ofPieces
    (separator : Char)
    (marked : List Mark) :
    (ofPieces separator (between separator marked)).text =
      Mark.text marked := by
  induction marked with
  | nil => rfl
  | cons m marked ih =>
      rw [between, Text.pieces]
      split
      · rename_i hCut
        have hChar : m.char = separator := (of_decide_eq_true hCut).2
        have hCons :=
          ofPieces_nil_cons separator (between_ne_nil separator marked)
        refine (congrArg text hCons).trans ?_
        rw [text_occurrence, ih, ← hChar]
        rfl
      · rw [map_text_pushFront, ofPieces_pushFront, text_prepend]
        exact congrArg (List.cons m.char) ih

theorem pieces_ofPieces
    (separator : Char)
    {pieces : List Text}
    (hSome : pieces ≠ []) :
    (ofPieces separator pieces).pieces = pieces := by
  cases pieces with
  | nil => exact absurd rfl hSome
  | cons first rest =>
      simp [ofPieces, Cut.pieces, Function.comp_def]

theorem fst_of_mem_tail_ofPieces
    (separator : Char)
    (pieces : List Text) :
    ∀ part ∈ (ofPieces separator pieces).tail, part.1 = [separator] := by
  cases pieces with
  | nil => exact fun _ h => absurd h List.not_mem_nil
  | cons first rest =>
      intro part hMem
      rcases List.mem_map.mp hMem with ⟨piece, -, rfl⟩
      rfl

/- The cut of a text at its words, which leaves the gaps. -/
def ofWords
    (trailing : Text) : List (Text × Text) → Cut
  | [] => ⟨trailing, []⟩
  | (gap, word) :: rest =>
      prepend gap (occurrence word (ofWords trailing rest))

theorem text_ofWords
    (trailing : Text)
    (list : List (Text × Text)) :
    (ofWords trailing list).text = Words.text ⟨list, trailing⟩ := by
  induction list with
  | nil => simp [ofWords, text, Words.text]
  | cons part list ih =>
      simp [ofWords, ih, Words.text]

theorem tail_ofWords
    (trailing : Text)
    (list : List (Text × Text)) :
    (ofWords trailing list).tail.map Prod.fst = list.map Prod.snd := by
  induction list with
  | nil => rfl
  | cons part list ih =>
      rw [List.map_cons, ← ih]
      rfl

/- The words are in the same ranges either way. -/
theorem rangesFrom_ofWords
    (start : Nat)
    (trailing : Text)
    (list : List (Text × Text)) :
    rangesFrom (start + Text.byteSize (ofWords trailing list).head)
        (ofWords trailing list).tail =
      Words.rangesFrom start list := by
  induction list generalizing start with
  | nil => rfl
  | cons part list ih =>
      rcases part with ⟨gap, word⟩
      have hRest :=
        ih (start + Text.byteSize gap + Text.byteSize word)
      simpa [ofWords, prepend, occurrence, rangesFrom, Words.rangesFrom]
        using hRest

end Cut

/- A word has a character. -/
theorem Words.ne_nil_of_mem_ofMarks
    (marked : List Mark) :
    ∀ part ∈ (Words.ofMarks marked).list, part.2 ≠ [] := by
  induction marked with
  | nil => exact fun _ h => absurd h List.not_mem_nil
  | cons m marked ih =>
      rw [Words.ofMarks]
      generalize Words.ofMarks marked = w at ih ⊢
      rcases w with ⟨_ | ⟨⟨gap, word⟩, rest⟩, trailing⟩
      · split <;> simp [Words.pushGap, Words.pushWord]
      · split
        · simpa [Words.pushGap] using ih
        · cases gap with
          | nil => simpa [Words.pushWord] using (List.forall_mem_cons.mp ih).2
          | cons c gap => simpa [Words.pushWord] using ih

/-
  The end of a range of words is that of the text through the
  word, by induction on the words in front of it.
-/
theorem Words.stop_of_rangesFrom
    {start i : Nat}
    {list : List (Text × Text)}
    {r : Range}
    (hRange : (rangesFrom start list)[i]? = some r) :
    r.stop = start + Text.byteSize (through (i + 1) ⟨list, []⟩) := by
  induction list generalizing start i with
  | nil => cases hRange
  | cons part list ih =>
      rcases part with ⟨gap, word⟩
      cases i with
      | zero =>
          cases hRange
          simp [through, Nat.add_assoc]
      | succ i =>
          have hRest := ih hRange
          simp only [through, List.take_succ_cons, List.flatMap_cons,
            Text.byteSize_append] at hRest ⊢
          omega

------------------------------------------------------------
-- Keywords
------------------------------------------------------------

namespace Text

variable {t : Text}

theorem exists_cutAtKeyword
    {keyword : Text}
    {cut : Cut}
    (hCut : cutAtKeyword keyword t = .ok cut) :
    cut.text = t ∧ ∀ part ∈ cut.tail, part.1 ≠ [] := by
  rcases map_eq_ok_iff.mp hCut with ⟨marked, hMarked, rfl⟩
  rw [Cut.text_ofMarks]
  exact
    ⟨text_of_marked hMarked, Cut.ne_nil_of_mem_tail_ofMarks _ _ marked⟩

theorem inOrder_keywordRanges
    {keyword : Text}
    {ranges : List Range}
    (hRanges : keywordRanges keyword t = .ok ranges) :
    Range.InOrder t ranges := by
  rcases map_eq_ok_iff.mp hRanges with ⟨cut, hCut, rfl⟩
  rcases exists_cutAtKeyword hCut with ⟨rfl, hSome⟩
  exact Cut.inOrder_ranges hSome

/- The pieces between keywords are the gaps between their ranges. -/
theorem exists_gaps_splitAtKeyword
    {keyword : Text}
    {pieces : List Text}
    (hPieces : splitAtKeyword keyword t = .ok pieces) :
    ∃ ranges,
      keywordRanges keyword t = .ok ranges ∧
        List.Forall₂ (fun r piece => Range.Cuts r t piece)
          (Range.gaps 0 (byteSize t) ranges) pieces := by
  rcases map_eq_ok_iff.mp hPieces with ⟨cut, hCut, rfl⟩
  refine ⟨cut.ranges, ?_, ?_⟩
  · rw [keywordRanges, hCut]
    rfl
  · rcases exists_cutAtKeyword hCut with ⟨rfl, -⟩
    exact Cut.cuts_gaps cut

------------------------------------------------------------
-- Separators and Words
------------------------------------------------------------

/-
  The pieces between separators are the gaps between ranges
  that hold the separators.
-/
theorem exists_gaps_splitTop
    {separator : Char}
    {pieces : List Text}
    (hPieces : splitTop separator t = .ok pieces) :
    ∃ ranges,
      Range.InOrder t ranges ∧
        (∀ r ∈ ranges, Range.Cuts r t [separator]) ∧
        List.Forall₂ (fun r piece => Range.Cuts r t piece)
          (Range.gaps 0 (byteSize t) ranges) pieces := by
  rcases map_eq_ok_iff.mp hPieces with ⟨marked, hMarked, rfl⟩
  let cut := Cut.ofPieces separator (Cut.between separator marked)
  have hText : cut.text = t :=
    (Cut.text_ofPieces separator marked).trans (text_of_marked hMarked)
  have hSeparators :=
    Cut.fst_of_mem_tail_ofPieces separator (Cut.between separator marked)
  have hPieces : cut.pieces = Cut.between separator marked :=
    Cut.pieces_ofPieces separator (Cut.between_ne_nil separator marked)
  change
    ∃ ranges, _ ∧ _ ∧ List.Forall₂ _ _ (Cut.between separator marked)
  rw [← hText, ← hPieces]
  refine ⟨cut.ranges, Cut.inOrder_ranges ?_, ?_, Cut.cuts_gaps cut⟩
  · intro part hMem
    rw [hSeparators part hMem]
    exact List.cons_ne_nil _ _
  · intro r hMem
    rcases Cut.exists_cuts_of_mem_ranges hMem with ⟨part, hIn, hCuts⟩
    rwa [hSeparators part hIn] at hCuts

/- The words of a text are its ranges without the gaps. -/
theorem inOrder_topWords
    {w : Words}
    (hWords : topWords t = .ok w) :
    Range.InOrder t w.ranges ∧
      List.Forall₂ (fun r word => Range.Cuts r t word) w.ranges w.words := by
  rcases map_eq_ok_iff.mp hWords with ⟨marked, hMarked, rfl⟩
  let w := Words.ofMarks marked
  have hText : (Cut.ofWords w.trailing w.list).text = t := by
    rw [Cut.text_ofWords, ← text_of_marked hMarked]
    exact Words.text_ofMarks marked
  have hRanges : (Cut.ofWords w.trailing w.list).ranges = w.ranges := by
    have hFrom := Cut.rangesFrom_ofWords 0 w.trailing w.list
    rwa [Nat.zero_add] at hFrom
  have hTail := Cut.tail_ofWords w.trailing w.list
  change Range.InOrder t w.ranges ∧ List.Forall₂ _ w.ranges w.words
  rw [← hText, ← hRanges, Words.words, ← hTail]
  refine ⟨Cut.inOrder_ranges ?_, Cut.cuts_ranges _⟩
  intro part hMem
  have hWord : part.1 ∈ w.list.map Prod.snd := by
    rw [← hTail]
    exact List.mem_map_of_mem hMem
  rcases List.mem_map.mp hWord with ⟨gapAndWord, hIn, hEq⟩
  rw [← hEq]
  exact Words.ne_nil_of_mem_ofMarks marked gapAndWord hIn

/- The text through a word ends where the word does. -/
theorem cuts_through
    {w : Words}
    {i : Nat}
    {r : Range}
    (hWords : topWords t = .ok w)
    (hRange : w.ranges[i]? = some r) :
    Range.Cuts ⟨0, r.stop⟩ t (w.through (i + 1)) := by
  rcases map_eq_ok_iff.mp hWords with ⟨marked, hMarked, rfl⟩
  have hText : (Words.ofMarks marked).text = t :=
    (Words.text_ofMarks marked).trans (text_of_marked hMarked)
  have hPrefix :
      (Words.ofMarks marked).through (i + 1) <+: t := by
    have hSplit :=
      List.take_append_drop (i + 1) (Words.ofMarks marked).list
    rw [← hText, Words.text, ← hSplit, List.flatMap_append,
      List.append_assoc]
    exact List.prefix_append _ _
  rw [Words.stop_of_rangesFrom hRange, Nat.zero_add]
  exact Range.cuts_front hPrefix

------------------------------------------------------------
-- Sections
------------------------------------------------------------

/-
  The text up to a keyword is the start of the text, and ends
  where the keyword begins if it occurs.
-/
theorem exists_first_untilKeyword
    {keyword front : Text}
    (hFront : untilKeyword keyword t = .ok front) :
    ∃ found,
      firstKeyword keyword t = .ok found ∧ front <+: t ∧
        byteSize front = Range.firstStart (byteSize t) [found] := by
  rcases map_eq_ok_iff.mp hFront with ⟨cut, hCut, rfl⟩
  rcases exists_cutAtKeyword hCut with ⟨rfl, -⟩
  refine ⟨cut.ranges.head?, ?_, ⟨_, rfl⟩, ?_⟩
  · rw [firstKeyword, keywordRanges, hCut]
    rfl
  · rcases cut with ⟨head, _ | ⟨part, tail⟩⟩
    · simp [Cut.ranges, Cut.rangesFrom, Range.firstStart, Cut.text]
    · have hLe : byteSize head ≤ byteSize (Cut.text ⟨head, part :: tail⟩) :=
        byteSize_front_le ⟨_, rfl⟩
      simpa [Cut.ranges, Cut.rangesFrom, Range.firstStart] using hLe

/- Of two starts of a text the shorter one takes fewer bytes. -/
theorem byteSize_shorter
    {s u : Text}
    (hFirst : s <+: t)
    (hSecond : u <+: t) :
    byteSize (if s.length ≤ u.length then s else u) =
      min (byteSize s) (byteSize u) := by
  split
  · rename_i hLe
    have hPrefix := List.prefix_of_prefix_length_le hFirst hSecond hLe
    exact (Nat.min_eq_left (byteSize_front_le hPrefix)).symm
  · rename_i hLt
    have hPrefix :=
      List.prefix_of_prefix_length_le hSecond hFirst
        (Nat.le_of_lt (Nat.not_le.mp hLt))
    exact (Nat.min_eq_right (byteSize_front_le hPrefix)).symm

theorem exists_first_untilKeywords
    {keywords : List Text}
    {front : Text}
    (hFront : untilKeywords t keywords = .ok front) :
    ∃ found,
      keywords.mapM (fun keyword => firstKeyword keyword t) = .ok found ∧
        front <+: t ∧
        byteSize front = Range.firstStart (byteSize t) found := by
  induction keywords generalizing front with
  | nil =>
      cases hFront
      exact ⟨[], rfl, List.prefix_refl t, rfl⟩
  | cons keyword keywords ih =>
      rcases bind_eq_ok_iff.mp hFront with ⟨head, hHead, hRest⟩
      rcases bind_eq_ok_iff.mp hRest with ⟨heads, hHeads, hEq⟩
      rcases exists_first_untilKeyword hHead with
        ⟨first, hFirst, hPrefix, hSize⟩
      rcases ih hHeads with ⟨found, hFound, hPrefixes, hSizes⟩
      cases hEq
      refine ⟨first :: found, ?_, ?_, ?_⟩
      · rw [List.mapM_cons, hFirst, hFound]
        rfl
      · split
        · exact hPrefix
        · exact hPrefixes
      · rw [byteSize_shorter hPrefix hPrefixes, hSize, hSizes]
        cases first with
        | none =>
            refine Nat.min_eq_right ?_
            rw [← hSizes]
            exact byteSize_front_le hPrefixes
        | some r =>
            have hLe : Range.firstStart (byteSize t) found ≤ byteSize t := by
              rw [← hSizes]
              exact byteSize_front_le hPrefixes
            simp only [Range.firstStart]
            omega

/-
  The section behind a keyword: the text from the end of its
  range on, up to the first of the keywords found in there.
-/
theorem exists_clause_section?
    {opening : Text}
    {closing : List Text}
    {found : Option Text}
    (hSection : section? opening closing t = .ok found) :
    firstKeyword opening t = .ok none ∧ found = none ∨
      ∃ r rest firsts front,
        firstKeyword opening t = .ok (some r) ∧
          Range.Cuts ⟨r.stop, byteSize t⟩ t rest ∧
          closing.mapM (fun keyword => firstKeyword keyword rest) =
            .ok firsts ∧
          Range.Cuts ⟨0, Range.firstStart (byteSize rest) firsts⟩ rest
            front ∧
          found = nonblank? front := by
  rcases bind_eq_ok_iff.mp hSection with ⟨cut, hCut, hRest⟩
  rcases exists_cutAtKeyword hCut with ⟨rfl, -⟩
  rw [firstKeyword, keywordRanges, hCut]
  rcases cut with ⟨head, _ | ⟨⟨keyword, after⟩, tail⟩⟩
  · cases hRest
    exact .inl ⟨rfl, rfl⟩
  · rcases bind_eq_ok_iff.mp hRest with ⟨front, hFront, hEq⟩
    rcases exists_first_untilKeywords hFront with
      ⟨firsts, hFirsts, hPrefix, hSize⟩
    cases hEq
    refine .inr ⟨_, Cut.text ⟨after, tail⟩, firsts, front, rfl, ?_,
      hFirsts, ?_, rfl⟩
    · have hBehind :=
        Range.cuts_behind (head ++ keyword) (Cut.text ⟨after, tail⟩)
      simpa [Cut.text] using hBehind
    · rw [← hSize]
      exact Range.cuts_front hPrefix

end Text

end SqlSelect
