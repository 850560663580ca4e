import SqlSelect.Proofs.Nesting.Spelling

/-
  Keywords across the junction of two texts. Where a blank
  stands between two texts no keyword runs from the first
  into the second, unless it has several words, so the text
  of both is cut where the one and the other are.

  Main statements:
    * `Cut.append`
    * `Cut.ofMarks_append`
    * `Text.cutOf_append`
    * `Text.IsFree`
    * `Text.cutOf_append_of_isFree`
    * `Text.isFree_append`
    * `Text.cutOf_word_append`
    * `Text.cutOf_otherKeyword_append`
    * `Text.cutOf_blank_append`
-/

namespace SqlSelect

namespace Cut

------------------------------------------------------------
-- Cuts Side by Side
------------------------------------------------------------

/-
  One cut behind another. The last piece of the first and the
  first piece of the second become one.
-/
def append
    (a b : Cut) : Cut :=
  prepend a.head
    (a.tail.foldr
      (fun (keyword, after) rest =>
        occurrence keyword (prepend after rest))
      b)

@[simp]
theorem prepend_prepend
    (s t : Text)
    (a : Cut) :
    prepend s (prepend t a) = prepend (s ++ t) a := by
  simp [prepend]

/- A text without occurrences is put in front as it is. -/
@[simp]
theorem append_of_head
    (t : Text)
    (b : Cut) :
    append ⟨t, []⟩ b = prepend t b := rfl

theorem append_prepend
    (t : Text)
    (a b : Cut) :
    append (prepend t a) b = prepend t (append a b) := by
  simp [append, prepend]

theorem append_occurrence
    (keyword : Text)
    (a b : Cut) :
    append (occurrence keyword a) b =
      occurrence keyword (append a b) := by
  simp [append, prepend, occurrence]

/- Two cuts have the occurrences of one and of the other. -/
theorem length_tail_append
    (a b : Cut) :
    (append a b).tail.length =
      a.tail.length + b.tail.length := by
  rcases a with ⟨head, tail⟩
  induction tail generalizing head with
  | nil => simp [append, prepend]
  | cons first rest ih =>
      have hRest := ih []
      simp only [append, prepend, List.foldr_cons, occurrence,
        List.length_cons] at hRest ⊢
      omega

------------------------------------------------------------
-- Marks Side by Side
------------------------------------------------------------

/-
  The last of some characters, or the one in front of them
  when there are none.
-/
def lastOr
    (previous : Option Char)
    (t : Text) : Option Char :=
  t.getLast?.or previous

theorem lastOr_append
    (previous : Option Char)
    (s t : Text) :
    lastOr (lastOr previous s) t = lastOr previous (s ++ t) := by
  cases hLast : t.getLast? with
  | none =>
      rw [List.getLast?_eq_none_iff] at hLast
      simp [lastOr, hLast]
  | some c => simp [lastOr, hLast, List.getLast?_append]

/-
  No occurrence of the keyword that begins in the first text
  depends on the second.
-/
def Apart
    (words : List Text)
    (s t : Text) : Prop :=
  ∀ u, u <:+ s → u ≠ [] →
    delimitedLength? words (u ++ t) = delimitedLength? words u

theorem apart_of_suffix
    {words : List Text}
    {s u t : Text}
    (hApart : Apart words s t)
    (hSuffix : u <:+ s) :
    Apart words u t :=
  fun v hPart hNotNil =>
    hApart v (hPart.trans hSuffix) hNotNil

theorem apart_of_seam
    {words : List Text}
    {s t : Text}
    (hWords : ∀ w ∈ words, Text.IsLetters w)
    (hSeam : s ≠ [] → Text.Seam s t)
    (hNext :
      ∀ w ∈ words.tail,
        Text.startsWord w (Text.trimStart t) = false) :
    Apart words s t := by
  intro u hSuffix hNotNil
  have hPart : s ≠ [] := by
    rintro rfl
    exact hNotNil (List.suffix_nil.mp hSuffix)
  exact delimitedLength?_append hWords hNotNil
    (Text.seam_of_suffix hSuffix hNotNil (hSeam hPart)) hNext

/- A keyword takes no more characters than there are. -/
theorem delimitedLength?_le
    {words : List Text}
    {t : Text}
    {length : Nat}
    (hWords : ∀ w ∈ words, Text.IsLetters w)
    (hFound : delimitedLength? words t = some length) :
    1 ≤ length ∧ length ≤ t.length := by
  rcases exists_spelled_of_delimitedLength? hWords hFound
    with ⟨k, rest, rfl, rfl, hSpells, -⟩
  have hHead := Text.head?_of_spells hWords hSpells
  cases k with
  | nil => exact absurd hHead (by simp)
  | cons c k => simp

theorem occurrenceLength?_append
    {words : List Text}
    (previous : Option Char)
    {m : Mark}
    {ms ms' : List Mark}
    (hApart :
      Apart words (Mark.text (m :: ms)) (Mark.text ms')) :
    occurrenceLength? words previous (m :: ms ++ ms') =
      occurrenceLength? words previous (m :: ms) := by
  have hSame :=
    hApart _ (List.suffix_refl _) (by simp [Mark.text])
  have hText :
      Mark.text (m :: ms ++ ms') =
        Mark.text (m :: ms) ++ Mark.text ms' := by
    simp [Mark.text]
  simp only [List.cons_append] at hText
  simp only [List.cons_append, occurrenceLength?, hText, hSame]

/-
  The cut of two runs of marks, by the recursion of the cut
  of the first.
-/
theorem ofMarks_append
    {words : List Text}
    {previous : Option Char}
    {ms : List Mark}
    (ms' : List Mark)
    (hWords : ∀ w ∈ words, Text.IsLetters w)
    (hApart : Apart words (Mark.text ms) (Mark.text ms')) :
    ofMarks words previous (ms ++ ms') =
      append (ofMarks words previous ms)
        (ofMarks words (lastOr previous (Mark.text ms)) ms') := by
  fun_induction ofMarks words previous ms with
  | case1 => rfl
  | case2 previous m rest hNone ih =>
      have hRest : Apart words (Mark.text rest) (Mark.text ms') :=
        apart_of_suffix hApart (List.suffix_cons _ _)
      have hLast :
          lastOr previous (Mark.text (m :: rest)) =
            lastOr (some m.char) (Mark.text rest) :=
        (lastOr_append previous [m.char] (Mark.text rest)).symm
      have hStill := occurrenceLength?_append previous hApart
      rw [hNone, List.cons_append] at hStill
      rw [List.cons_append, ofMarks, hStill, hLast,
        append_prepend, ih hRest]
  | case3 previous m rest length hFound keyword ih =>
      have hStill := occurrenceLength?_append previous hApart
      rw [hFound, List.cons_append] at hStill
      have hLength : 1 ≤ length ∧ length ≤ rest.length + 1 := by
        simp only [occurrenceLength?,
          Option.ite_none_right_eq_some] at hFound
        simpa [Mark.text] using
          delimitedLength?_le hWords hFound.2
      have hLe : length - 1 ≤ rest.length := by omega
      have hDropped :
          Mark.text (rest.drop (length - 1)) <:+
            Mark.text (m :: rest) := by
        have hDrop := List.drop_suffix (length - 1) rest
        exact (hDrop.map Mark.char).trans (List.suffix_cons _ _)
      have hRest := ih (apart_of_suffix hApart hDropped)
      have hLast :
          lastOr previous (Mark.text (m :: rest)) =
            lastOr keyword.getLast?
              (Mark.text (rest.drop (length - 1))) := by
        have hText :
            Mark.text (m :: rest) =
              keyword ++ Mark.text (rest.drop (length - 1)) := by
          simp [keyword, Mark.text]
        have hKeyword :
            lastOr previous keyword = keyword.getLast? := by
          simp [lastOr, keyword, List.getLast?_cons]
        rw [hText, ← lastOr_append, hKeyword]
      rw [List.cons_append, ofMarks, hStill]
      simp only [List.take_append_of_le_length hLe,
        List.drop_append_of_le_length hLe, append_occurrence,
        hLast]
      rw [← hRest]

/- What stands in front matters only as an end of a word. -/
theorem ofMarks_congr
    {words : List Text}
    {previous other : Option Char}
    (hEnds : EndsBefore previous ↔ EndsBefore other)
    (ms : List Mark) :
    ofMarks words previous ms = ofMarks words other ms := by
  cases ms with
  | nil => simp [ofMarks]
  | cons m rest =>
      have hSame :
          occurrenceLength? words previous (m :: rest) =
            occurrenceLength? words other (m :: rest) := by
        simp only [occurrenceLength?, hEnds]
      rw [ofMarks, ofMarks, hSame]

/- A text that does not begin with a letter can stand anywhere. -/
theorem ofMarks_of_head
    {words : List Text}
    {ms : List Mark}
    (hWords : ∀ w ∈ words, Text.IsLetters w)
    (previous other : Option Char)
    (hHead : (Mark.text ms).head?.any Char.isAlpha = false) :
    ofMarks words previous ms = ofMarks words other ms := by
  cases ms with
  | nil => simp [ofMarks]
  | cons m rest =>
      have hNone :=
        delimitedLength?_eq_none_of_head hWords hHead
      have hNowhere (p : Option Char) :
          occurrenceLength? words p (m :: rest) = none := by
        simp [occurrenceLength?, hNone]
      rw [ofMarks, ofMarks, hNowhere, hNowhere]

end Cut

------------------------------------------------------------
-- Texts Side by Side
------------------------------------------------------------

namespace Text

/- The cut of a balanced text at the words of a keyword. -/
def cutOf
    (words : List Text)
    (t : Text) : Cut :=
  Cut.ofMarks words none (marking t)

theorem cutAtKeyword_eq
    {keyword t : Text}
    (hBalanced : Balanced t) :
    cutAtKeyword keyword t = .ok (cutOf keyword.words t) := by
  rw [cutAtKeyword, marked_eq, if_pos hBalanced]
  rfl

@[simp]
theorem cutOf_nil
    (words : List Text) :
    cutOf words [] = ⟨[], []⟩ := by
  simp [cutOf, marking, Nesting.marking, Cut.ofMarks]

/- Cutting loses nothing. -/
theorem text_cutOf
    (words : List Text)
    {t : Text}
    (hBalanced : Balanced t) :
    (cutOf words t).text = t := by
  rw [cutOf, Cut.text_ofMarks, text_marking hBalanced]

/- Behind a seam a text is cut as it is on its own. -/
theorem ofMarks_behind_seam
    {words : List Text}
    {s t : Text}
    (hWords : ∀ w ∈ words, IsLetters w)
    (hBalanced : Balanced t)
    (hSeam : s ≠ [] → Seam s t) :
    Cut.ofMarks words s.getLast? (marking t) = cutOf words t := by
  by_cases hNil : s = []
  · rw [hNil]
    rfl
  · rcases hSeam hNil with hEnd | hHead | hLast
    · rw [hEnd]
      simp [cutOf, marking, Nesting.marking, Cut.ofMarks]
    · apply Cut.ofMarks_of_head hWords
      rw [text_marking hBalanced]
      cases t with
      | nil => rfl
      | cons c t =>
          have hBlank : SqlSelect.isBlank c = true := by
            simpa using hHead
          simpa using isAlpha_eq_false_of_isBlank hBlank
    · apply Cut.ofMarks_congr
      cases hGet : s.getLast? with
      | none => rfl
      | some c =>
          rw [hGet] at hLast
          have hBlank : SqlSelect.isBlank c = true := by
            simpa using hLast
          simp [EndsBefore, hBlank]

theorem cutOf_append_of_apart
    {words : List Text}
    {s t : Text}
    (hWords : ∀ w ∈ words, IsLetters w)
    (hFirst : Balanced s)
    (hSecond : Balanced t)
    (hSeam : s ≠ [] → Seam s t)
    (hApart : Cut.Apart words s t) :
    cutOf words (s ++ t) =
      Cut.append (cutOf words s) (cutOf words t) := by
  have hMarks :
      Cut.Apart words (Mark.text (marking s))
        (Mark.text (marking t)) := by
    rw [text_marking hFirst, text_marking hSecond]
    exact hApart
  have hLast :
      Cut.lastOr none (Mark.text (marking s)) = s.getLast? := by
    rw [text_marking hFirst]
    cases hGet : s.getLast? <;> simp [Cut.lastOr, hGet]
  rw [cutOf, marking_append t hFirst,
    Cut.ofMarks_append _ hWords hMarks, hLast,
    ofMarks_behind_seam hWords hSecond hSeam]
  rfl

theorem cutOf_append
    {words : List Text}
    {s t : Text}
    (hWords : ∀ w ∈ words, IsLetters w)
    (hFirst : Balanced s)
    (hSecond : Balanced t)
    (hSeam : s ≠ [] → Seam s t)
    (hNext :
      ∀ w ∈ words.tail, startsWord w (trimStart t) = false) :
    cutOf words (s ++ t) =
      Cut.append (cutOf words s) (cutOf words t) :=
  cutOf_append_of_apart hWords hFirst hSecond hSeam
    (Cut.apart_of_seam hWords hSeam hNext)

------------------------------------------------------------
-- Texts without the Keyword
------------------------------------------------------------

/- The keyword does not occur in the text. -/
def IsFree
    (words : List Text)
    (t : Text) : Prop :=
  cutOf words t = ⟨t, []⟩

instance
    (words : List Text)
    (t : Text) :
    Decidable (IsFree words t) := by
  unfold IsFree
  infer_instance

theorem isFree_nil
    (words : List Text) :
    IsFree words [] :=
  cutOf_nil words

/- A text is free of a keyword when there is no occurrence. -/
theorem isFree_of_tail
    {words : List Text}
    {t : Text}
    (hBalanced : Balanced t)
    (hTail : (cutOf words t).tail = []) :
    IsFree words t := by
  have hText := text_cutOf words hBalanced
  rw [IsFree]
  cases hCut : cutOf words t with
  | mk head tail =>
      rw [hCut] at hTail hText
      have hNil : tail = [] := hTail
      rw [hNil] at hText ⊢
      simpa [Cut.text] using hText

/- No first place of a keyword is found in a text free of it. -/
theorem firstKeyword_eq_none_iff
    {keyword t : Text}
    (hBalanced : Balanced t) :
    firstKeyword keyword t = .ok none ↔ IsFree keyword.words t := by
  rw [firstKeyword, keywordRanges, cutAtKeyword_eq hBalanced]
  constructor
  · intro hNone
    apply isFree_of_tail hBalanced
    cases hTail : (cutOf keyword.words t).tail with
    | nil => rfl
    | cons first rest =>
        simp [Except.map, Cut.ranges, hTail, Cut.rangesFrom] at hNone
  · intro hFree
    rw [hFree]
    rfl

theorem cutOf_append_of_isFree
    {words : List Text}
    {s t : Text}
    (hWords : ∀ w ∈ words, IsLetters w)
    (hFirst : Balanced s)
    (hFree : IsFree words s)
    (hSecond : Balanced t)
    (hSeam : s ≠ [] → Seam s t)
    (hNext :
      ∀ w ∈ words.tail, startsWord w (trimStart t) = false) :
    cutOf words (s ++ t) = Cut.prepend s (cutOf words t) := by
  rw [cutOf_append hWords hFirst hSecond hSeam hNext, hFree,
    Cut.append_of_head]

theorem isFree_append
    {words : List Text}
    {s t : Text}
    (hWords : ∀ w ∈ words, IsLetters w)
    (hFirst : Balanced s)
    (hFree : IsFree words s)
    (hSecond : Balanced t)
    (hFree' : IsFree words t)
    (hSeam : s ≠ [] → Seam s t)
    (hNext :
      ∀ w ∈ words.tail, startsWord w (trimStart t) = false) :
    IsFree words (s ++ t) := by
  rw [IsFree,
    cutOf_append_of_isFree hWords hFirst hFree hSecond hSeam
      hNext, hFree']
  simp [Cut.prepend]

/- Nothing is found where no letter is at the top level. -/
theorem ofMarks_of_no_letter
    {words : List Text}
    {previous : Option Char}
    {ms : List Mark}
    (hWords : ∀ w ∈ words, IsLetters w)
    (hMarks :
      ∀ m ∈ ms, m.top = false ∨ m.char.isAlpha = false) :
    Cut.ofMarks words previous ms = ⟨Mark.text ms, []⟩ := by
  induction ms generalizing previous with
  | nil => simp [Cut.ofMarks, Mark.text]
  | cons m rest ih =>
      have hNone :
          occurrenceLength? words previous (m :: rest) =
            none := by
        rcases hMarks m List.mem_cons_self with hTop | hAlpha
        · simp [occurrenceLength?, hTop]
        · have hNowhere :
              delimitedLength? words
                (Mark.text (m :: rest)) = none :=
            delimitedLength?_eq_none_of_head hWords
              (by simpa [Mark.text] using hAlpha)
          simp [occurrenceLength?, hNowhere]
      rw [Cut.ofMarks, hNone]
      simp only
      rw [ih fun m' h => hMarks m' (List.mem_cons_of_mem m h)]
      simp [Cut.prepend, Mark.text]

theorem isFree_of_no_letter
    {words : List Text}
    {t : Text}
    (hWords : ∀ w ∈ words, IsLetters w)
    (hBalanced : Balanced t)
    (hText : ∀ c ∈ t, c.isAlpha = false) :
    IsFree words t := by
  rw [IsFree, cutOf,
    ofMarks_of_no_letter hWords, text_marking hBalanced]
  intro m hMem
  right
  apply hText
  rw [← text_marking hBalanced]
  exact List.mem_map_of_mem hMem

theorem isFree_of_isBlank
    {words : List Text}
    {t : Text}
    (hWords : ∀ w ∈ words, IsLetters w)
    (hBlank : IsBlank t) :
    IsFree words t := by
  apply isFree_of_no_letter hWords (balanced_of_isBlank hBlank)
  exact fun c hMem =>
    isAlpha_eq_false_of_isBlank (isBlank_iff.mp hBlank c hMem)

/- Groups and quoted sections are free of every keyword. -/
theorem isFree_of_hidden
    {words : List Text}
    {t : Text}
    (hWords : ∀ w ∈ words, IsLetters w)
    (hBalanced : Balanced t)
    (hHidden : Nesting.Hidden (marking t)) :
    IsFree words t := by
  rw [IsFree, cutOf, ofMarks_of_no_letter hWords,
    text_marking hBalanced]
  exact fun m hMem => Or.inl (hHidden m hMem)

/- No keyword begins inside of a word. -/
theorem ofMarks_inside_word
    {words : List Text}
    {previous : Char}
    {ms : List Mark}
    (ms' : List Mark)
    (hPrevious : isNameChar previous = true)
    (hMarks : ∀ m ∈ ms, isNameChar m.char = true) :
    Cut.ofMarks words (some previous) (ms ++ ms') =
      Cut.prepend (Mark.text ms)
        (Cut.ofMarks words
          (Cut.lastOr (some previous) (Mark.text ms)) ms') := by
  induction ms generalizing previous with
  | nil => rfl
  | cons m rest ih =>
      have hInside : ¬ EndsBefore (some previous) := by
        have hBlank := isBlank_eq_false_of_isNameChar hPrevious
        have hParen : previous ≠ ')' := by
          rintro rfl
          exact not_isDelimiter_of_isNameChar hPrevious
            (Or.inr (Or.inr rfl))
        simp [EndsBefore, hBlank, hParen]
      have hNone :
          occurrenceLength? words (some previous)
            (m :: (rest ++ ms')) = none := by
        simp [occurrenceLength?, hInside]
      have hLast :
          Cut.lastOr (some previous) (Mark.text (m :: rest)) =
            Cut.lastOr (some m.char) (Mark.text rest) :=
        (Cut.lastOr_append (some previous) [m.char]
          (Mark.text rest)).symm
      have hRest :=
        ih (hMarks m List.mem_cons_self)
          fun m' h => hMarks m' (List.mem_cons_of_mem m h)
      rw [List.cons_append, Cut.ofMarks, hNone, hLast]
      simp only [hRest, Cut.prepend_prepend]
      rfl

/- A word that is no keyword is a part of what follows. -/
theorem cutOf_word_append
    {words : List Text}
    {s t : Text}
    (hWords : ∀ w ∈ words, IsLetters w)
    (hNames : ∀ c ∈ s, isNameChar c = true)
    (hBalanced : Balanced t)
    (hHead : t.head?.any Char.isAlpha = false)
    (hOther : delimitedLength? words (s ++ t) = none) :
    cutOf words (s ++ t) = Cut.prepend s (cutOf words t) := by
  have hPlain : ∀ c ∈ s, ¬ IsDelimiter c :=
    fun c hMem => not_isDelimiter_of_isNameChar (hNames c hMem)
  cases s with
  | nil => rfl
  | cons c s =>
      have hMarks :
          marking (c :: s ++ t) =
            ⟨c, true⟩ :: (Nesting.allTop s ++ marking t) := by
        rw [marking_append t (balanced_of_plain hPlain),
          marking_of_plain hPlain]
        rfl
      have hText :
          Mark.text
              (⟨c, true⟩ :: (Nesting.allTop s ++ marking t)) =
            c :: s ++ t := by
        rw [← hMarks]
        exact text_marking
          (balanced_append (balanced_of_plain hPlain) hBalanced)
      have hStart :
          occurrenceLength? words none
              (⟨c, true⟩ :: (Nesting.allTop s ++ marking t)) =
            none := by
        simp only [occurrenceLength?, hText, hOther, ite_self]
      have hRest :
          Cut.ofMarks words (c :: s).getLast? (marking t) =
            cutOf words t := by
        apply Cut.ofMarks_of_head hWords
        rw [text_marking hBalanced]
        exact hHead
      have hLast :
          Cut.lastOr (some c) (Mark.text (Nesting.allTop s)) =
            (c :: s).getLast? := by
        simp [Cut.lastOr, List.getLast?_cons]
      rw [cutOf, hMarks, Cut.ofMarks, hStart]
      simp only
      rw [ofMarks_inside_word _ (hNames c List.mem_cons_self),
        hLast, hRest, Cut.prepend_prepend, Nesting.text_allTop]
      · rfl
      · intro m hMem
        simp only [Nesting.allTop, List.mem_map] at hMem
        rcases hMem with ⟨d, hD, rfl⟩
        exact hNames d (List.mem_cons_of_mem c hD)

/- A word is no keyword that it does not spell. -/
theorem delimitedLength?_eq_none_of_word
    {words : List Text}
    {t : Text}
    (hWords : ∀ w ∈ words, IsLetters w)
    (hNames : ∀ c ∈ t, isNameChar c = true)
    (hOther : ¬ Spells words t) :
    delimitedLength? words t = none := by
  cases hFound : delimitedLength? words t with
  | none => rfl
  | some length =>
      exfalso
      rcases exists_spelled_of_delimitedLength? hWords hFound
        with ⟨k, rest, hSplit, -, hSpells, hEnds⟩
      cases rest with
      | nil =>
          rw [List.append_nil] at hSplit
          exact hOther (hSplit ▸ hSpells)
      | cons d rest =>
          have hName := hNames d (by simp [hSplit])
          have hParen : d = '(' := by
            simpa [EndsAfter,
              isBlank_eq_false_of_isNameChar hName] using hEnds
          exact not_isDelimiter_of_isNameChar hName
            (Or.inr (Or.inl hParen))

/- A word is free of every keyword that it does not spell. -/
theorem isFree_of_word
    {words : List Text}
    {t : Text}
    (hWords : ∀ w ∈ words, IsLetters w)
    (hNames : ∀ c ∈ t, isNameChar c = true)
    (hOther : ¬ Spells words t) :
    IsFree words t := by
  have hNone : delimitedLength? words (t ++ []) = none := by
    rw [List.append_nil]
    exact delimitedLength?_eq_none_of_word hWords hNames hOther
  have hCut :=
    cutOf_word_append hWords hNames balanced_nil rfl hNone
  rw [cutOf_nil, List.append_nil] at hCut
  rw [IsFree, hCut]
  simp [Cut.prepend]

/- Blanks are a part of what follows. -/
theorem cutOf_blank_append
    {words : List Text}
    {b t : Text}
    (hWords : ∀ w ∈ words, IsLetters w)
    (hBlank : IsBlank b)
    (hBalanced : Balanced t) :
    cutOf words (b ++ t) = Cut.prepend b (cutOf words t) := by
  have hFree := isFree_of_isBlank hWords hBlank
  have hSeam : b ≠ [] → Seam b t := by
    intro hNotNil
    refine Or.inr (Or.inr ?_)
    rw [List.getLast?_eq_some_getLast hNotNil]
    exact isBlank_iff.mp hBlank _ (List.getLast_mem hNotNil)
  have hApart : Cut.Apart words b t := by
    intro u hSuffix hNotNil
    cases u with
    | nil => exact absurd rfl hNotNil
    | cons c u =>
        have hMem : c ∈ b := hSuffix.subset List.mem_cons_self
        have hAlpha :=
          isAlpha_eq_false_of_isBlank
            (isBlank_iff.mp hBlank c hMem)
        rw [delimitedLength?_eq_none_of_head hWords
            (by simpa using hAlpha),
          delimitedLength?_eq_none_of_head hWords
            (by simpa using hAlpha)]
  rw [cutOf_append_of_apart hWords (balanced_of_isBlank hBlank)
    hBalanced hSeam hApart, hFree, Cut.append_of_head]

------------------------------------------------------------
-- Other Keywords
------------------------------------------------------------

/- A word with another first letter is not the keyword. -/
theorem cutOf_otherWord_append
    {first word s t : Text}
    {words : List Text}
    (hWords : ∀ w ∈ first :: words, IsLetters w)
    (hLetters : IsLetters word)
    (hInitial : initial first ≠ initial word)
    (hSame : SameWord s word)
    (hBalanced : Balanced t)
    (hHead : t.head?.any Char.isAlpha = false) :
    cutOf (first :: words) (s ++ t) =
      Cut.prepend s (cutOf (first :: words) t) := by
  have hSpelled := isLetters_of_sameWord hSame hLetters
  have hOther : initial first ≠ initial (s ++ t) := by
    rw [initial_append t hSpelled.1, initial_of_sameWord hSame]
    exact hInitial
  have hStart : startsWord first (s ++ t) = false :=
    startsWord_eq_false_of_initial
      (hWords first List.mem_cons_self).1 hOther
  have hNone :
      delimitedLength? (first :: words) (s ++ t) = none := by
    simp [delimitedLength?, keywordLength?, hStart]
  exact
    cutOf_word_append hWords (isNameChar_of_isLetters hSpelled)
      hBalanced hHead hNone

/-
  A spelling of a keyword is no place for another one whose
  first letter is different from those of its words.
-/
theorem cutOf_otherKeyword_append
    {first s t : Text}
    {words others : List Text}
    (hWords : ∀ w ∈ first :: words, IsLetters w)
    (hLetters : ∀ w ∈ others, IsLetters w)
    (hInitial : ∀ w ∈ others, initial first ≠ initial w)
    (hSpells : Spells others s)
    (hBalanced : Balanced t)
    (hBlank : StartsBlank t) :
    cutOf (first :: words) (s ++ t) =
      Cut.prepend s (cutOf (first :: words) t) := by
  induction others generalizing s with
  | nil => exact absurd hSpells id
  | cons word others ih =>
      rcases hSpells
        with ⟨spelled, following, rfl, hSame, hFollowing⟩
      have hRest : ∀ w ∈ others, IsLetters w :=
        fun w h => hLetters w (List.mem_cons_of_mem word h)
      have hLast : Balanced (following ++ t) :=
        balanced_append
          (balanced_of_plain
            (plain_of_spellsAfter hRest hFollowing))
          hBalanced
      have hBehind :
          cutOf (first :: words) (following ++ t) =
            Cut.prepend following (cutOf (first :: words) t) := by
        cases others with
        | nil =>
            rw [hFollowing]
            rfl
        | cons next others =>
            rcases spellsAfter_cons_iff.mp hFollowing
              with ⟨gap, spelling, rfl, -, hGapBlank, hSpelling⟩
            have hBoth :=
              balanced_append
                (balanced_of_plain (plain_of_spells hRest hSpelling))
                hBalanced
            rw [List.append_assoc,
              cutOf_blank_append hWords hGapBlank hBoth,
              ih hRest
                (fun w h => hInitial w (List.mem_cons_of_mem word h))
                hSpelling,
              Cut.prepend_prepend]
      rw [List.append_assoc,
        cutOf_otherWord_append hWords
          (hLetters word List.mem_cons_self)
          (hInitial word List.mem_cons_self) hSame hLast
          (head?_of_startsBlank
            (startsBlank_append_of_spellsAfter hFollowing hBlank)),
        hBehind, Cut.prepend_prepend]

end Text

end SqlSelect
