import SqlSelect.Proofs.Cursor.Walk
import SqlSelect.Proofs.Nesting.Division

/-
  The words of a text that is put together. Where a gap stands
  between two texts their words are the words of both, and the
  words up to one of them are those of the text up to its end.

  Main statements:
    * `Words.append`
    * `Words.ofMarks_append_gap`
    * `Words.exists_ofMarks_take`
    * `Text.wordsOf`
    * `Text.wordsOf_append`
    * `Text.wordsOf_through`
    * `Text.topWords_word`
    * `Text.topWords_pair`
-/

namespace SqlSelect

------------------------------------------------------------
-- Words One after the Other
------------------------------------------------------------

namespace Words

/-
  The words of two texts, where the gap at the end of the one
  goes on with the gap in front of the other.
-/
def append
    (a b : Words) : Words :=
  match b.list with
  | [] => ⟨a.list, a.trailing ++ b.trailing⟩
  | (gap, word) :: rest =>
      ⟨a.list ++ (a.trailing ++ gap, word) :: rest, b.trailing⟩

theorem words_append
    (a b : Words) :
    (append a b).words = a.words ++ b.words := by
  rcases b with ⟨list, trailing⟩
  cases list <;> simp [append, words]

/- A gap is in front of the next word, or at the end. -/
theorem ofMarks_gap_append
    {ms : List Mark}
    (rest : List Mark)
    (hGaps : ∀ m ∈ ms, m.IsGap) :
    ofMarks (ms ++ rest) = append ⟨[], Mark.text ms⟩ (ofMarks rest) := by
  induction ms with
  | nil =>
      rcases hRest : ofMarks rest with ⟨list, trailing⟩
      cases list <;> simp [append, Mark.text, hRest]
  | cons m ms ih =>
      rw [List.cons_append, ofMarks,
        if_pos (hGaps m List.mem_cons_self),
        ih fun k h => hGaps k (List.mem_cons_of_mem m h)]
      rcases ofMarks rest with ⟨list, trailing⟩
      cases list <;> simp [append, pushGap, Mark.text]

/- Without a gap there is one word. -/
theorem ofMarks_word
    {ms : List Mark}
    (hSome : ms ≠ [])
    (hNone : ∀ m ∈ ms, ¬ m.IsGap) :
    ofMarks ms = ⟨[([], Mark.text ms)], []⟩ := by
  induction ms with
  | nil => exact absurd rfl hSome
  | cons m ms ih =>
      rw [ofMarks, if_neg (hNone m List.mem_cons_self)]
      cases ms with
      | nil => rfl
      | cons m' ms =>
          rw [ih (List.cons_ne_nil m' ms)
            fun k h => hNone k (List.mem_cons_of_mem m h)]
          rfl

/- A gap stands in front of the first word, if there is one. -/
def StartsGap
    (w : Words) : Prop :=
  ∀ part ∈ w.list.head?, part.1 ≠ []

theorem startsGap_ofMarks
    {ms : List Mark}
    (hNext : ∀ m ∈ ms.head?, m.IsGap) :
    StartsGap (ofMarks ms) := by
  cases ms with
  | nil => simp [StartsGap, ofMarks]
  | cons m ms =>
      rw [ofMarks, if_pos (hNext m (by simp))]
      rcases ofMarks ms with ⟨list, trailing⟩
      cases list <;> simp [StartsGap, pushGap]

/- What follows a character of a word is a word of its own. -/
theorem pushWord_append
    {a b : Words}
    (c : Char)
    (hEnds : a.list = [] → a.trailing = [] → StartsGap b) :
    pushWord c (append a b) = append (pushWord c a) b := by
  rcases a with ⟨as, trailing⟩
  rcases b with ⟨bs, last⟩
  cases as with
  | nil =>
      cases bs with
      | nil => rfl
      | cons part bs =>
          rcases part with ⟨gap, word⟩
          cases trailing with
          | nil =>
              have hGap : gap ≠ [] :=
                hEnds rfl rfl (gap, word) (by simp)
              cases gap with
              | nil => exact absurd rfl hGap
              | cons d gap => rfl
          | cons d trailing => rfl
  | cons part as =>
      rcases part with ⟨gap, word⟩
      cases gap <;> cases bs <;> rfl

/-
  Behind a text that a gap follows the words are those of the
  rest, by induction on the text.
-/
theorem ofMarks_append_gap
    (ms : List Mark)
    {rest : List Mark}
    (hNext : ∀ m ∈ rest.head?, m.IsGap) :
    ofMarks (ms ++ rest) = append (ofMarks ms) (ofMarks rest) := by
  induction ms with
  | nil =>
      rcases hRest : ofMarks rest with ⟨list, trailing⟩
      cases list <;> simp [ofMarks, append, hRest]
  | cons m ms ih =>
      rw [List.cons_append, ofMarks, ofMarks, ih]
      by_cases hGap : m.IsGap
      · rw [if_pos hGap, if_pos hGap]
        rcases ofMarks ms with ⟨as, trailing⟩
        rcases ofMarks rest with ⟨bs, last⟩
        cases as <;> cases bs <;> rfl
      · rw [if_neg hGap, if_neg hGap]
        exact
          pushWord_append m.char fun _ _ => startsGap_ofMarks hNext

/-
  The words up to one of them are those of the marks up to its
  end. By induction on the marks.
-/
theorem exists_ofMarks_take
    (ms : List Mark)
    {count : Nat}
    (hCount : count ≤ (ofMarks ms).list.length) :
    ∃ front rest,
      ms = front ++ rest ∧
        ofMarks front = ⟨(ofMarks ms).list.take count, []⟩ := by
  induction ms generalizing count with
  | nil => exact ⟨[], [], rfl, by simp [ofMarks]⟩
  | cons m ms ih =>
      cases count with
      | zero => exact ⟨[], m :: ms, rfl, rfl⟩
      | succ count =>
          -- The mark goes on with the first gap or word, or begins one.
          have hStep
              (k : Nat)
              (hLe : k ≤ (ofMarks ms).list.length)
              (hTake :
                ∀ front,
                  ofMarks front = ⟨(ofMarks ms).list.take k, []⟩ →
                    ofMarks (m :: front) =
                      ⟨(ofMarks (m :: ms)).list.take (count + 1), []⟩) :
              ∃ front rest,
                m :: ms = front ++ rest ∧
                  ofMarks front =
                    ⟨(ofMarks (m :: ms)).list.take (count + 1), []⟩ := by
            rcases ih hLe with ⟨front, rest, hSplit, hFront⟩
            exact
              ⟨m :: front, rest, congrArg _ hSplit, hTake front hFront⟩
          rcases hWords : ofMarks ms with ⟨list, trailing⟩
          by_cases hGap : m.IsGap
          · rw [ofMarks, if_pos hGap, hWords] at hCount
            cases list with
            | nil => simp [pushGap] at hCount
            | cons part list =>
                apply hStep (count + 1)
                · simpa [hWords, pushGap] using hCount
                · intro front hFront
                  rw [ofMarks, ofMarks, if_pos hGap, if_pos hGap, hFront,
                    hWords]
                  rfl
          · rw [ofMarks, if_neg hGap, hWords] at hCount
            rcases list with _ | ⟨⟨_ | ⟨d, gap⟩, word⟩, list⟩
            · apply hStep count
              · simpa [hWords, pushWord] using hCount
              · intro front hFront
                rw [ofMarks, ofMarks, if_neg hGap, if_neg hGap, hFront,
                  hWords]
                simp [pushWord]
            · apply hStep (count + 1)
              · simpa [hWords, pushWord] using hCount
              · intro front hFront
                rw [ofMarks, ofMarks, if_neg hGap, if_neg hGap, hFront,
                  hWords]
                rfl
            · apply hStep count
              · simpa [hWords, pushWord] using hCount
              · intro front hFront
                rw [ofMarks, ofMarks, if_neg hGap, if_neg hGap, hFront,
                  hWords]
                cases count <;> rfl

/- The words of a division are all of its text up to the gap. -/
theorem through_length
    {w : Words}
    (hTrailing : w.trailing = []) :
    w.through w.list.length = w.text := by
  rw [through, List.take_length, text, hTrailing, List.append_nil]

end Words

------------------------------------------------------------
-- The Words of a Text
------------------------------------------------------------

namespace Text

variable {s b t : Text}

/- The words of a text, which are found if it is balanced. -/
def wordsOf
    (t : Text) : Words :=
  Words.ofMarks (marking t)

theorem topWords_eq
    (hBalanced : Balanced t) :
    topWords t = .ok (wordsOf t) :=
  Words.topWords_eq hBalanced

theorem text_wordsOf
    (hBalanced : Balanced t) :
    (wordsOf t).text = t := by
  rw [wordsOf, Words.text_ofMarks, text_marking hBalanced]

/- A text ends in its last word, with blanks behind it. -/
theorem exists_append_last
    {last : Text}
    (hBalanced : Balanced t)
    (hLast : (wordsOf t).words.getLast? = some last) :
    ∃ front b, t = front ++ last ++ b ∧ IsBlank b := by
  rw [Words.words, List.getLast?_map, Option.map_eq_some_iff] at hLast
  rcases hLast with ⟨⟨gap, word⟩, hGet, rfl⟩
  rcases List.getLast?_eq_some_iff.mp hGet with ⟨list, hList⟩
  refine
    ⟨(list.flatMap fun part => part.1 ++ part.2) ++ gap,
      (wordsOf t).trailing, ?_, (Words.divides_ofMarks hBalanced).1⟩
  have hText := text_wordsOf hBalanced
  rw [Words.text, hList] at hText
  conv_lhs => rw [← hText]
  simp

/- There is no gap at the end of a trimmed text. -/
theorem trailing_wordsOf
    (hBalanced : Balanced t)
    (hTrim : trim t = t) :
    (wordsOf t).trailing = [] := by
  have hText := text_wordsOf hBalanced
  rw [← hText, Words.text] at hTrim
  exact eq_nil_of_trim hTrim (Words.divides_ofMarks hBalanced).1

/- The words of a text, the last of which is told. -/
theorem exists_last_wordsOf
    (hSome : s ≠ [])
    (hBalanced : Balanced s)
    (hTrim : trim s = s) :
    ∃ last before,
      (wordsOf s).words.reverse = last :: before ∧
        before.length + 1 = (wordsOf s).list.length := by
  have hText := text_wordsOf hBalanced
  rw [Words.text, trailing_wordsOf hBalanced hTrim, List.append_nil]
    at hText
  cases hWords : (wordsOf s).words.reverse with
  | nil =>
      rw [List.reverse_eq_nil_iff, Words.words, List.map_eq_nil_iff]
        at hWords
      rw [hWords] at hText
      exact absurd hText.symm hSome
  | cons last before =>
      have hLength := congrArg List.length hWords
      rw [List.length_reverse, Words.words, List.length_map] at hLength
      exact ⟨last, before, rfl, hLength.symm⟩

theorem isGap_of_mem_marking
    (hBlank : IsBlank b) :
    ∀ m ∈ marking b, m.IsGap := by
  have hPlain : ∀ c ∈ b, ¬ IsDelimiter c := fun c hMem =>
    not_isDelimiter_of_isBlank (isBlank_iff.mp hBlank c hMem)
  rw [marking_of_plain hPlain]
  intro m hMem
  rcases List.mem_map.mp hMem with ⟨c, hChar, rfl⟩
  exact ⟨rfl, isBlank_iff.mp hBlank c hChar⟩

/- No blank at the top level is a gap nowhere. -/
theorem not_isGap_of_passes
    (hPasses : Nesting.outside.Passes SqlSelect.isBlank s) :
    ∀ m ∈ marking s, ¬ m.IsGap := by
  rintro m hMem ⟨hTop, hBlank⟩
  rw [hPasses m hMem hTop] at hBlank
  exact absurd hBlank (by decide)

theorem marking_ne_nil
    (hBalanced : Balanced s)
    (hSome : s ≠ []) :
    marking s ≠ [] := by
  intro hNil
  have hText := text_marking hBalanced
  rw [hNil] at hText
  exact hSome hText.symm

/- Blanks in front are in the first gap. -/
theorem wordsOf_blank_append
    (t : Text)
    (hBlank : IsBlank b) :
    wordsOf (b ++ t) = Words.append ⟨[], b⟩ (wordsOf t) := by
  have hBalanced := balanced_of_isBlank hBlank
  rw [wordsOf, marking_append _ hBalanced,
    Words.ofMarks_gap_append _ (isGap_of_mem_marking hBlank),
    text_marking hBalanced]
  rfl

/- Behind a gap the words are those of the rest. -/
theorem wordsOf_append
    (t : Text)
    (hBalanced : Balanced s)
    (hGap : b ≠ [])
    (hBlank : IsBlank b) :
    wordsOf (s ++ (b ++ t)) =
      Words.append (wordsOf s) (Words.append ⟨[], b⟩ (wordsOf t)) := by
  have hBlanks := balanced_of_isBlank hBlank
  have hNext : ∀ m ∈ (marking (b ++ t)).head?, m.IsGap := by
    rw [marking_append _ hBlanks]
    cases hMarks : marking b with
    | nil => exact absurd hMarks (marking_ne_nil hBlanks hGap)
    | cons m ms =>
        have hGaps := isGap_of_mem_marking hBlank
        rw [hMarks] at hGaps
        simpa using hGaps m List.mem_cons_self
  rw [← wordsOf_blank_append t hBlank, wordsOf,
    marking_append _ hBalanced, Words.ofMarks_append_gap _ hNext]
  rfl

theorem words_wordsOf_append
    (t : Text)
    (hBalanced : Balanced s)
    (hGap : b ≠ [])
    (hBlank : IsBlank b) :
    (wordsOf (s ++ (b ++ t))).words =
      (wordsOf s).words ++ (wordsOf t).words := by
  rw [wordsOf_append t hBalanced hGap hBlank, Words.words_append,
    Words.words_append]
  rfl

/- A text without a blank at the top level is one word. -/
theorem wordsOf_word
    (hSome : s ≠ [])
    (hBalanced : Balanced s)
    (hPasses : Nesting.outside.Passes SqlSelect.isBlank s) :
    wordsOf s = ⟨[([], s)], []⟩ := by
  rw [wordsOf,
    Words.ofMarks_word (marking_ne_nil hBalanced hSome)
      (not_isGap_of_passes hPasses),
    text_marking hBalanced]

theorem topWords_word
    (hSome : s ≠ [])
    (hBalanced : Balanced s)
    (hPasses : Nesting.outside.Passes SqlSelect.isBlank s) :
    topWords s = .ok ⟨[([], s)], []⟩ := by
  rw [topWords_eq hBalanced, wordsOf_word hSome hBalanced hPasses]

/- Two such texts with blanks between them are two words. -/
theorem topWords_pair
    (hSome : s ≠ [])
    (hBalanced : Balanced s)
    (hPasses : Nesting.outside.Passes SqlSelect.isBlank s)
    (hGap : b ≠ [])
    (hBlank : IsBlank b)
    (hSome' : t ≠ [])
    (hBalanced' : Balanced t)
    (hPasses' : Nesting.outside.Passes SqlSelect.isBlank t) :
    topWords (s ++ (b ++ t)) = .ok ⟨[([], s), (b, t)], []⟩ := by
  have hWhole := balanced_append hBalanced
    (balanced_append (balanced_of_isBlank hBlank) hBalanced')
  rw [topWords_eq hWhole, wordsOf_append t hBalanced hGap hBlank,
    wordsOf_word hSome hBalanced hPasses,
    wordsOf_word hSome' hBalanced' hPasses']
  simp [Words.append]

/- The words of the text through some of its words are these. -/
theorem wordsOf_through
    {count : Nat}
    (hBalanced : Balanced t)
    (hCount : count ≤ (wordsOf t).list.length) :
    wordsOf ((wordsOf t).through count) =
      ⟨(wordsOf t).list.take count, []⟩ := by
  rcases Words.exists_ofMarks_take (marking t) hCount
    with ⟨front, rest, hSplit, hFront⟩
  have hText : Mark.text front = (wordsOf t).through count := by
    have hWords := Words.text_ofMarks front
    rw [hFront, Words.text, List.append_nil] at hWords
    exact hWords.symm
  have hBalanced' : Balanced ((wordsOf t).through count) :=
    Words.balanced_through hBalanced count
  -- The marks of the text in front are the first of its marks.
  have hMarks : marking (Mark.text front) = front := by
    have hWhole := text_marking hBalanced
    rw [hSplit, Mark.text, List.map_append] at hWhole
    rw [← hText] at hBalanced'
    have hFirst := marking_append (Mark.text rest) hBalanced'
    rw [show Mark.text front ++ Mark.text rest = t from hWhole, hSplit]
      at hFirst
    refine ((List.append_inj hFirst ?_).1).symm
    have hLength := congrArg List.length (text_marking hBalanced')
    simpa [Mark.text] using hLength.symm
  rw [← hText, wordsOf, hMarks, hFront]
  rfl

theorem words_through
    {front behind : List Text}
    (hBalanced : Balanced t)
    (hWords : (wordsOf t).words.reverse = behind ++ front) :
    (wordsOf ((wordsOf t).through front.length)).words.reverse =
      front := by
  have hSplit : (wordsOf t).words = front.reverse ++ behind.reverse := by
    rw [← List.reverse_append, ← hWords, List.reverse_reverse]
  have hCount : front.length ≤ (wordsOf t).list.length := by
    have hLength := congrArg List.length hSplit
    simp only [Words.words, List.length_map, List.length_append,
      List.length_reverse] at hLength
    omega
  rw [wordsOf_through hBalanced hCount, Words.words, List.map_take]
  rw [Words.words] at hSplit
  rw [hSplit, List.take_left' (List.length_reverse ..),
    List.reverse_reverse]

end Text

end SqlSelect
