import SqlSelect.Proofs.Cursor.Divisions
import SqlSelect.Proofs.Query.Tables

/-
  The words of a text are its longest runs of characters that
  are no blanks at the top level. In front of a run and behind
  it is such a blank or nothing, every other character of the
  text is one, and whatever belongs together, as a quoted
  section or a group does, is in one run.

  Main statements:
    * `Mark.IsRun`
    * `Mark.run_induction`
    * `Words.mem_rangesFrom_iff`
    * `Mark.exists_isRun_around`
    * `Text.IsSection`
    * `Cursor.topWords_runs`
-/

namespace SqlSelect

open Text

------------------------------------------------------------
-- Runs of Marks
------------------------------------------------------------

namespace Mark

/-
  The marks covered are a run between gaps: there are some of
  them and none is of a gap, and in front of them and behind
  them is a gap or nothing.
-/
structure IsRun
    (before covered after : List Mark) : Prop where
  some : covered ≠ []
  noGap : ∀ m ∈ covered, ¬ m.IsGap
  gapBefore : ∀ m ∈ before.getLast?, m.IsGap
  gapAfter : ∀ m ∈ after.head?, m.IsGap

variable {gaps word rest before covered after : List Mark}

/- The first of the marks that have a property, and the rest. -/
theorem exists_first_marks
    (p : Mark → Prop)
    (ms : List Mark) :
    ∃ front rest,
      ms = front ++ rest ∧ (∀ m ∈ front, p m) ∧
        ∀ m ∈ rest.head?, ¬ p m := by
  induction ms with
  | nil => exact ⟨[], [], rfl, nofun, nofun⟩
  | cons m ms ih =>
      by_cases hMark : p m
      · rcases ih with ⟨front, rest, rfl, hFront, hRest⟩
        exact
          ⟨m :: front, rest, rfl,
            List.forall_mem_cons.mpr ⟨hMark, hFront⟩, hRest⟩
      · exact ⟨[], m :: ms, rfl, nofun, by simpa using hMark⟩

/- The last of the marks that have a property, and the rest. -/
theorem exists_last_marks
    (p : Mark → Prop)
    (ms : List Mark) :
    ∃ rest last,
      ms = rest ++ last ∧ (∀ m ∈ last, p m) ∧
        ∀ m ∈ rest.getLast?, ¬ p m := by
  rcases exists_first_marks p ms.reverse
    with ⟨last, rest, hText, hLast, hRest⟩
  refine ⟨rest.reverse, last.reverse, ?_, ?_, ?_⟩
  · rw [← List.reverse_append, ← hText, List.reverse_reverse]
  · exact fun m hMem => hLast m (List.mem_reverse.mp hMem)
  · rwa [List.getLast?_reverse]

/-
  Marks are gaps only, or gaps and a run with marks behind it.
  By induction on the number of marks.
-/
theorem run_induction
    {motive : List Mark → Prop}
    (none : ∀ gaps, (∀ m ∈ gaps, m.IsGap) → motive gaps)
    (run :
      ∀ gaps word rest,
        (∀ m ∈ gaps, m.IsGap) →
          IsRun gaps word rest →
            motive rest → motive (gaps ++ (word ++ rest)))
    (ms : List Mark) :
    motive ms := by
  induction hLength : ms.length using Nat.strong_induction_on
    generalizing ms with
  | _ length ih =>
      rcases exists_first_marks IsGap ms
        with ⟨gaps, _ | ⟨m, tail⟩, rfl, hGaps, hNext⟩
      · rw [List.append_nil]
        exact none gaps hGaps
      · rcases exists_first_marks (fun m => ¬ m.IsGap) (m :: tail)
          with ⟨word, rest, hTail, hWord, hRest⟩
        have hSome : word ≠ [] := by
          rintro rfl
          rw [← List.nil_append rest, ← hTail] at hRest
          exact hRest m rfl (hNext m rfl)
        have hRun : IsRun gaps word rest :=
          ⟨hSome, hWord, fun m hMem => hGaps m (List.mem_of_getLast? hMem),
            fun m hMem => not_not.mp (hRest m hMem)⟩
        rw [hTail] at hLength ⊢
        refine run gaps word rest hGaps hRun (ih rest.length ?_ rest rfl)
        have hPos := List.length_pos_iff.mpr hSome
        rw [← hLength, List.length_append, List.length_append]
        omega

/- Two runs that begin in one place are the same. -/
theorem IsRun.eq_of_append
    (hRun : IsRun before word rest)
    (hOther : IsRun before covered after)
    (hBoth : word ++ rest = covered ++ after) :
    covered = word ∧ after = rest := by
  rcases List.append_eq_append_iff.mp hBoth
    with ⟨_ | ⟨m, more⟩, rfl, hRest⟩ | ⟨_ | ⟨m, more⟩, rfl, hRest⟩
  · exact ⟨List.append_nil word, hRest.symm⟩
  · subst hRest
    exact
      absurd (hRun.gapAfter m rfl)
        (hOther.noGap m (List.mem_append_right word List.mem_cons_self))
  · exact ⟨(List.append_nil covered).symm, hRest⟩
  · subst hRest
    exact
      absurd (hOther.gapAfter m rfl)
        (hRun.noGap m (List.mem_append_right covered List.mem_cons_self))

/- A run is the first one, or one of the marks behind it. -/
theorem IsRun.first_or_behind
    (hGaps : ∀ m ∈ gaps, m.IsGap)
    (hFirst : IsRun gaps word rest)
    (hRun : IsRun before covered after)
    (hBoth : gaps ++ (word ++ rest) = before ++ (covered ++ after)) :
    (before = gaps ∧ covered = word) ∨
      ∃ before',
        before = gaps ++ (word ++ before') ∧
          rest = before' ++ (covered ++ after) ∧
          IsRun before' covered after := by
  have hHere (hSame : before = gaps) : covered = word := by
    subst hSame
    exact
      (hFirst.eq_of_append hRun (List.append_cancel_left hBoth)).1
  rcases List.append_eq_append_iff.mp hBoth
    with ⟨front, hBefore, hBehind⟩ | ⟨gap, hFront, hCovered⟩
  · subst hBefore
    have hLast (m : Mark) (hMem : m ∈ front.getLast?) : m.IsGap := by
      apply hRun.gapBefore m
      rw [List.getLast?_append, Option.mem_def.mp hMem]
      rfl
    rcases List.append_eq_append_iff.mp hBehind
      with ⟨before', rfl, hRest⟩ | ⟨more, rfl, -⟩
    · refine
        .inr ⟨before', rfl, hRest, hRun.some, hRun.noGap, ?_,
          hRun.gapAfter⟩
      intro m hMem
      apply hLast m
      rw [List.getLast?_append, Option.mem_def.mp hMem]
      rfl
    · -- No run begins in the first one.
      cases hEnd : front.getLast? with
      | none =>
          obtain rfl := List.getLast?_eq_none_iff.mp hEnd
          rw [List.append_nil] at hHere ⊢
          exact .inl ⟨rfl, hHere rfl⟩
      | some m =>
          refine absurd (hLast m hEnd) (hFirst.noGap m ?_)
          exact List.mem_append_left more (List.mem_of_getLast? hEnd)
  · -- No run begins in a gap.
    cases gap with
    | nil =>
        rw [List.append_nil] at hFront
        exact .inl ⟨hFront.symm, hHere hFront.symm⟩
    | cons m gap =>
        rcases List.exists_cons_of_ne_nil hRun.some with ⟨m', more, rfl⟩
        obtain rfl : m' = m := (List.cons.inj hCovered).1
        refine absurd (hGaps m' ?_) (hRun.noGap m' List.mem_cons_self)
        rw [hFront]
        exact List.mem_append_right before List.mem_cons_self

/- A run behind the first one is a run of all the marks. -/
theorem IsRun.append_front
    (hFirst : IsRun gaps word (before ++ (covered ++ after)))
    (hRun : IsRun before covered after) :
    before ≠ [] ∧ IsRun (gaps ++ (word ++ before)) covered after := by
  have hSome : before ≠ [] := by
    rintro rfl
    rcases List.exists_cons_of_ne_nil hRun.some with ⟨m, more, rfl⟩
    exact hRun.noGap m List.mem_cons_self (hFirst.gapAfter m rfl)
  refine ⟨hSome, hRun.some, hRun.noGap, ?_, hRun.gapAfter⟩
  rw [← List.append_assoc, List.getLast?_append_of_ne_nil _ hSome]
  exact hRun.gapBefore

/- Marks without a gap are part of a run. -/
theorem exists_isRun_around
    {part : List Mark}
    (before after : List Mark)
    (hSome : part ≠ [])
    (hNoGap : ∀ m ∈ part, ¬ m.IsGap) :
    ∃ before' left right after',
      before = before' ++ left ∧ after = right ++ after' ∧
        IsRun before' (left ++ (part ++ right)) after' := by
  rcases exists_last_marks (fun m => ¬ m.IsGap) before
    with ⟨before', left, rfl, hLeft, hBefore⟩
  rcases exists_first_marks (fun m => ¬ m.IsGap) after
    with ⟨right, after', rfl, hRight, hAfter⟩
  refine
    ⟨before', left, right, after', rfl, rfl, ?_, ?_,
      fun m hMem => not_not.mp (hBefore m hMem),
      fun m hMem => not_not.mp (hAfter m hMem)⟩
  · simp [hSome]
  · intro m hMem
    rcases List.mem_append.mp hMem with hMem | hMem
    · exact hLeft m hMem
    · exact (List.mem_append.mp hMem).elim (hNoGap m) (hRight m)

end Mark

namespace Words

/- There is no word among gaps. -/
theorem list_ofMarks_gaps
    {gaps : List Mark}
    (hGaps : ∀ m ∈ gaps, m.IsGap) :
    (ofMarks gaps).list = [] := by
  have hWords := ofMarks_gap_append [] hGaps
  rw [List.append_nil] at hWords
  rw [hWords]
  rfl

/- The range of a run that only gaps are in front of. -/
theorem rangesFrom_run
    {gaps word rest : List Mark}
    (start : Nat)
    (hGaps : ∀ m ∈ gaps, m.IsGap)
    (hRun : Mark.IsRun gaps word rest) :
    rangesFrom start (ofMarks (gaps ++ (word ++ rest))).list =
      ⟨start + byteSize (Mark.text gaps),
        start + byteSize (Mark.text gaps) + byteSize (Mark.text word)⟩ ::
        rangesFrom
          (start + byteSize (Mark.text gaps) +
            byteSize (Mark.text word))
          (ofMarks rest).list := by
  rw [ofMarks_gap_append _ hGaps, ofMarks_append_gap word hRun.gapAfter,
    ofMarks_word hRun.some hRun.noGap]
  rcases ofMarks rest with ⟨_ | ⟨⟨gap, next⟩, list⟩, trailing⟩ <;>
    simp [append, rangesFrom]

/- The ranges of the words are those of the runs. -/
theorem mem_rangesFrom_iff
    (start : Nat)
    (ms : List Mark)
    (r : Range) :
    r ∈ rangesFrom start (ofMarks ms).list ↔
      ∃ before covered after,
        ms = before ++ (covered ++ after) ∧
          Mark.IsRun before covered after ∧
          r =
            ⟨start + byteSize (Mark.text before),
              start + byteSize (Mark.text before) +
                byteSize (Mark.text covered)⟩ := by
  induction ms using Mark.run_induction generalizing start with
  | none gaps hGaps =>
      rw [list_ofMarks_gaps hGaps]
      refine ⟨nofun, ?_⟩
      rintro ⟨before, covered, after, rfl, hRun, -⟩
      rcases List.exists_cons_of_ne_nil hRun.some with ⟨m, more, rfl⟩
      exact absurd (hGaps m (by simp)) (hRun.noGap m List.mem_cons_self)
  | run gaps word rest hGaps hFirst ih =>
      rw [rangesFrom_run start hGaps hFirst, List.mem_cons, ih]
      constructor
      · rintro (rfl | ⟨before, covered, after, rfl, hRun, rfl⟩)
        · exact ⟨gaps, word, rest, rfl, hFirst, rfl⟩
        · refine
            ⟨gaps ++ (word ++ before), covered, after, by simp,
              (hFirst.append_front hRun).2, ?_⟩
          simp [Mark.text, Nat.add_assoc]
      · rintro ⟨before, covered, after, hBoth, hRun, rfl⟩
        rcases hFirst.first_or_behind hGaps hRun hBoth
          with ⟨rfl, rfl⟩ | ⟨before', rfl, hRest, hBehind⟩
        · exact .inl rfl
        · refine .inr ⟨before', covered, after, hRest, hBehind, ?_⟩
          simp [Mark.text, Nat.add_assoc]

/- Between the ranges of two words there is a gap. -/
theorem pairwise_rangesFrom
    (start : Nat)
    (ms : List Mark) :
    (rangesFrom start (ofMarks ms).list).Pairwise fun r later =>
      r.stop < later.start := by
  induction ms using Mark.run_induction generalizing start with
  | none gaps hGaps =>
      rw [list_ofMarks_gaps hGaps]
      exact .nil
  | run gaps word rest hGaps hFirst ih =>
      rw [rangesFrom_run start hGaps hFirst, List.pairwise_cons]
      refine ⟨?_, ih _⟩
      intro later hMem
      rcases (mem_rangesFrom_iff _ rest later).mp hMem
        with ⟨before, covered, after, rfl, hRun, rfl⟩
      have hSome := (hFirst.append_front hRun).1
      have hPos : 0 < byteSize (Mark.text before) :=
        byteSize_pos (by simpa [Mark.text] using hSome)
      exact Nat.lt_add_of_pos_right hPos

/- Marks without a gap are in the range of one word. -/
theorem exists_range_around
    {part : List Mark}
    (before after : List Mark)
    (hSome : part ≠ [])
    (hNoGap : ∀ m ∈ part, ¬ m.IsGap) :
    ∃ r ∈ rangesFrom 0 (ofMarks (before ++ (part ++ after))).list,
      r.start ≤ byteSize (Mark.text before) ∧
        byteSize (Mark.text before) + byteSize (Mark.text part) ≤
          r.stop := by
  rcases Mark.exists_isRun_around before after hSome hNoGap
    with ⟨before', left, right, after', rfl, rfl, hRun⟩
  refine
    ⟨_, (mem_rangesFrom_iff 0 _ _).mpr
      ⟨before', left ++ (part ++ right), after', by simp, hRun, rfl⟩,
      ?_, ?_⟩
  · simp [Mark.text]
  · simp only [Mark.text, List.map_append, byteSize_append]
    omega

end Words

------------------------------------------------------------
-- Sections
------------------------------------------------------------

namespace Text

/-
  The text is one quoted or bracketed section, or one group,
  from the character that opens it to the one that closes it.
-/
inductive IsSection : Text → Prop where
  | quoted
      {q : Char}
      (inner : Text)
      (hQuote : closerOf? q = some q) :
      IsSection (between q inner)
  | bracketed
      (inner : Text)
      (hNone : ']' ∉ inner) :
      IsSection ('[' :: (inner ++ [']']))
  | group
      (inner : Text)
      (hBalanced : Balanced inner) :
      IsSection ('(' :: (inner ++ [')']))

variable {part : Text}

theorem IsSection.balanced_hidden
    (hSection : IsSection part) :
    Balanced part ∧ Nesting.Hidden (marking part) := by
  cases hSection with
  | quoted inner hQuote =>
      exact ⟨balanced_quoted hQuote inner, hidden_quoted hQuote inner⟩
  | bracketed inner hNone =>
      have hInside := run_inside 0 hNone
      exact
        ⟨balanced_section rfl hInside,
          hidden_section rfl hInside (hidden_marking_inside 0 hNone)⟩
  | group inner hBalanced =>
      exact ⟨balanced_group hBalanced, hidden_group hBalanced⟩

theorem IsSection.run
    (depth : Nat)
    (hSection : IsSection part) :
    Nesting.run ⟨none, depth⟩ part = some ⟨none, depth⟩ := by
  have hRun := Nesting.run_deeper depth hSection.balanced_hidden.1
  simpa [Nesting.deeper, Nesting.outside] using hRun

/- At any depth nothing of a section is at the top level. -/
theorem IsSection.hidden_marking
    (depth : Nat)
    (hSection : IsSection part) :
    Nesting.Hidden (Nesting.marking ⟨none, depth⟩ part) := by
  cases depth with
  | zero => exact hSection.balanced_hidden.2
  | succ depth =>
      have hInside := Nesting.hidden_marking_deeper (hSection.run depth)
      simpa [Nesting.deeper] using hInside

/- A section of a text is in the range of one word. -/
theorem IsSection.exists_range
    {front : Text}
    {depth : Nat}
    (behind : Text)
    (hSection : IsSection part)
    (hFront : Nesting.outside.run front = some ⟨none, depth⟩) :
    ∃ r ∈ (wordsOf (front ++ (part ++ behind))).ranges,
      r.start ≤ byteSize front ∧ byteSize (front ++ part) ≤ r.stop := by
  have hPart := hSection.run depth
  have hSome : Nesting.marking ⟨none, depth⟩ part ≠ [] := by
    intro hNone
    have hText := Nesting.text_marking hPart
    rw [hNone] at hText
    cases hSection <;> cases hText
  have hNoGap : ∀ m ∈ Nesting.marking ⟨none, depth⟩ part, ¬ m.IsGap := by
    rintro m hMem ⟨hTop, -⟩
    rw [hSection.hidden_marking depth m hMem] at hTop
    cases hTop
  rcases
    Words.exists_range_around (Nesting.outside.marking front)
      (Nesting.marking ⟨none, depth⟩ behind) hSome hNoGap
    with ⟨r, hMem, hStart, hStop⟩
  rw [Nesting.text_marking hFront] at hStart hStop
  rw [Nesting.text_marking hPart, ← byteSize_append] at hStop
  rw [← Nesting.marking_append _ hPart, ← Nesting.marking_append _ hFront]
    at hMem
  exact ⟨r, hMem, hStart, hStop⟩

end Text

------------------------------------------------------------
-- Words Found by the Cursor
------------------------------------------------------------

namespace Cursor

variable {t : Text}
variable {r : Range}

/- The words of a balanced text are words on their own. -/
theorem topWords_slice
    (hBalanced : Text.Balanced t)
    (hMem : r ∈ (wordsOf t).ranges) :
    topWords (r.slice t) = .ok [⟨0, byteSize (r.slice t)⟩] := by
  have hSlices := (inOrder_topWords (Text.topWords_eq hBalanced)).2
  rcases Condition.exists_of_mem_forall₂ hSlices.flip hMem
    with ⟨word, hWord, hCuts⟩
  have hIsWord : IsWord word := by
    rcases List.mem_map.mp hWord with ⟨part, hPart, rfl⟩
    cases hList : (wordsOf t).list with
    | nil =>
        rw [hList] at hPart
        cases hPart
    | cons first rest =>
        rw [hList] at hPart
        rcases isWord_of_wordsOf hBalanced hList with ⟨hFirst, hRest⟩
        rcases List.mem_cons.mp hPart with rfl | hPart
        · exact hFirst
        · exact (hRest part hPart).2
  rw [hCuts.2, topWords_eq, Text.topWords_eq hIsWord.balanced,
    hIsWord.wordsOf_eq]
  simp [Except.map, Words.ranges, Words.rangesFrom]

/-
  The ranges of the words of a balanced text are those of its
  runs of characters that are no blanks at the top level. They
  are in order and apart from each other, nothing but such
  blanks is outside of them, a section or group is in one of
  them, and every word alone is one word.
-/
theorem topWords_runs
    (hBalanced : Text.Balanced t) :
    (ofText t).topChars = .ok (Mark.topsFrom 0 (marking t)) ∧
      ∃ ranges,
        topWords t = .ok ranges ∧
          (Text.topWords t).map Words.ranges = .ok ranges ∧
          (ranges.Pairwise fun r later => r.stop < later.start) ∧
          (∀ r ∈ ranges, r.start < r.stop) ∧
          (∀ r,
            r ∈ ranges ↔
              ∃ before covered after,
                marking t = before ++ (covered ++ after) ∧
                  Mark.IsRun before covered after ∧
                  r =
                    ⟨byteSize (Mark.text before),
                      byteSize (Mark.text before) +
                        byteSize (Mark.text covered)⟩) ∧
          (∀ before m after,
            marking t = before ++ m :: after →
              (∀ r ∈ ranges,
                byteSize (Mark.text before) < r.start ∨
                  r.stop ≤ byteSize (Mark.text before)) →
                m.IsGap) ∧
          (∀ front part behind depth,
            t = front ++ (part ++ behind) →
              IsSection part →
                Nesting.outside.run front = some ⟨none, depth⟩ →
                  ∃ r ∈ ranges,
                    r.start ≤ byteSize front ∧
                      byteSize (front ++ part) ≤ r.stop) ∧
          ∀ r ∈ ranges,
            topWords (r.slice t) =
              .ok [⟨0, byteSize (r.slice t)⟩] := by
  have hRuns := Words.mem_rangesFrom_iff 0 (marking t)
  have hFound : topWords t = .ok (wordsOf t).ranges := by
    rw [topWords_eq, Text.topWords_eq hBalanced]
    rfl
  refine
    ⟨topChars_eq [] hBalanced, (wordsOf t).ranges, hFound,
      (topWords_eq t).symm.trans hFound,
      Words.pairwise_rangesFrom 0 (marking t), ?_, ?_, ?_, ?_,
      fun r hMem => topWords_slice hBalanced hMem⟩
  · intro r hMem
    rcases (hRuns r).mp hMem with ⟨before, covered, after, -, hRun, rfl⟩
    have hPos : 0 < byteSize (Mark.text covered) :=
      byteSize_pos (by simpa [Mark.text] using hRun.some)
    exact Nat.lt_add_of_pos_right hPos
  · intro r
    have hRange := hRuns r
    simp only [Nat.zero_add] at hRange
    exact hRange
  · intro before m after hMarks hOutside
    by_contra hGap
    rcases
      Words.exists_range_around before after (List.cons_ne_nil m [])
        (by simpa using hGap)
      with ⟨r, hMem, hStart, hStop⟩
    rw [List.singleton_append, ← hMarks] at hMem
    have hPos : 0 < byteSize (Mark.text [m]) :=
      byteSize_pos (List.cons_ne_nil m.char [])
    rcases hOutside r hMem with hBefore | hBehind <;> omega
  · rintro front part behind depth rfl hSection hFront
    exact hSection.exists_range behind hFront

/- Words with a quoted section, a group and a bracketed one. -/
theorem topWords_runs_sections :
    topWords " a'x y'(b c)  [d ]e f ".toList =
        .ok [⟨1, 12⟩, ⟨14, 19⟩, ⟨20, 21⟩] ∧
      (∃ before covered after,
        marking " a'x y'(b c)  [d ]e f ".toList =
            before ++ (covered ++ after) ∧
          Mark.IsRun before covered after ∧
          (⟨14, 19⟩ : Range) =
            ⟨byteSize (Mark.text before),
              byteSize (Mark.text before) +
                byteSize (Mark.text covered)⟩) ∧
      (∃ r ∈ [(⟨1, 12⟩ : Range), ⟨14, 19⟩, ⟨20, 21⟩],
        r.start ≤ byteSize " a'x y'".toList ∧
          byteSize " a'x y'(b c)".toList ≤ r.stop) ∧
      topWords "a'x y'(b c)".toList = .ok [⟨0, 11⟩] := by
  have hBalanced : Text.Balanced " a'x y'(b c)  [d ]e f ".toList := by
    decide +kernel
  have hRanges :
      (Text.topWords " a'x y'(b c)  [d ]e f ".toList).map Words.ranges =
        .ok [⟨1, 12⟩, ⟨14, 19⟩, ⟨20, 21⟩] := by
    decide +kernel
  rcases topWords_runs hBalanced
    with ⟨-, ranges, hFound, hSame, -, -, hRuns, -, hSections, hEach⟩
  obtain rfl := Except.ok.inj (hRanges.symm.trans hSame)
  exact
    ⟨hFound, (hRuns ⟨14, 19⟩).mp (by decide),
      hSections " a'x y'".toList "(b c)".toList "  [d ]e f ".toList 0 rfl
        (.group "b c".toList (by decide)) (by decide),
      hEach ⟨1, 12⟩ (by decide)⟩

end Cursor

end SqlSelect
