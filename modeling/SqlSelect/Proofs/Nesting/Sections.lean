import SqlSelect.Proofs.Nesting.Division
import SqlSelect.Proofs.Nesting.Occurrence

/-
  Sections between keywords. Occurrences of keywords whose
  words begin with other letters do not overlap, a text that
  is read up to some keywords ends at the first of them and
  holds none of them, and blanks around it do not matter.

  Main statements:
    * `Text.exists_word_of_spells`
    * `Text.Occurs.length_le_of_lt`
    * `Text.Until`
    * `Text.exists_untilKeywords_eq`
    * `Text.Until.unique`
    * `Text.Until.isFree`
    * `Text.section?_eq_some_iff`
    * `Text.isFree_surround`
-/

namespace SqlSelect

namespace Text

variable {words words' : List Text}
variable {closing : List Text}
variable {opening s t u v front keyword after : Text}
variable {front' keyword' after' : Text}

------------------------------------------------------------
-- Overlaps
------------------------------------------------------------

/- The text ends with a blank, or is empty. -/
def EndsBlank
    (t : Text) : Prop :=
  t.getLast?.all SqlSelect.isBlank = true

theorem not_endsBlank_of_isAlpha
    (hLast : t.getLast?.any Char.isAlpha = true) :
    ¬ EndsBlank t := by
  cases hGet : t.getLast? with
  | none => rw [hGet] at hLast; exact absurd hLast (by simp)
  | some c =>
      rw [hGet] at hLast
      have hBlank := isBlank_eq_false_of_isAlpha hLast
      simp [EndsBlank, hGet, hBlank]

theorem endsBlank_append_iff
    (hNotNil : u ≠ []) :
    EndsBlank (t ++ u) ↔ EndsBlank u := by
  rw [EndsBlank, EndsBlank, List.getLast?_append_of_ne_nil _ hNotNil]

/- A text that ends with a blank ends behind a word, or before. -/
theorem eq_nil_or_exists_of_word
    {spelled following : Text}
    (hLetters : IsLetters spelled)
    (hSplit : u ++ v = spelled ++ following)
    (hBlank : EndsBlank u) :
    u = [] ∨ ∃ rest, EndsBlank rest ∧ following = rest ++ v := by
  -- No nonempty part of the word ends with a blank.
  have hPart {part : Text}
      (hSubset : part ⊆ spelled)
      (hNotNil : part ≠ []) :
      ¬ EndsBlank part := by
    apply not_endsBlank_of_isAlpha
    rw [List.getLast?_eq_some_getLast hNotNil]
    exact isAlpha_of_mem hLetters (hSubset (List.getLast_mem hNotNil))
  rcases List.append_eq_append_iff.mp hSplit with
    ⟨part, hSpelled, -⟩ | ⟨rest, hU, hFollowing⟩
  · refine .inl (by_contra fun hNotNil => ?_)
    refine hPart ?_ hNotNil hBlank
    rw [hSpelled]
    exact List.subset_append_left u part
  · refine .inr ⟨rest, ?_, hFollowing⟩
    by_cases hNil : rest = []
    · rw [hU, hNil, List.append_nil] at hBlank
      exact absurd hBlank (hPart (List.Subset.refl _) hLetters.1)
    · rw [hU] at hBlank
      exact (endsBlank_append_iff hNil).mp hBlank

/-
  Behind a blank in a spelling a letter begins one of the
  words, by induction on the words.
-/
theorem exists_word_of_spellsAfter
    (hWords : ∀ w ∈ words, IsLetters w)
    (hSpells : SpellsAfter words (u ++ v))
    (hBlank : EndsBlank u)
    (hHead : v.head?.any Char.isAlpha = true) :
    ∃ w ∈ words, ∃ spelled more,
      v = spelled ++ more ∧ SameWord spelled w ∧ EndsAfter more := by
  induction words generalizing u with
  | nil =>
      have hNil : u ++ v = [] := hSpells
      rw [(List.append_eq_nil_iff.mp hNil).2] at hHead
      exact absurd hHead (by simp)
  | cons word words ih =>
      rcases hSpells
        with ⟨gap, spelled, following, hSplit, -, hGap, hSame,
          hFollowing⟩
      have hLetters :=
        isLetters_of_sameWord hSame (hWords word List.mem_cons_self)
      have hFirst {x : Text} (hText : x = spelled ++ following) :
          ∃ w ∈ word :: words, ∃ spelled more,
            x = spelled ++ more ∧ SameWord spelled w ∧
              EndsAfter more :=
        ⟨word, List.mem_cons_self, spelled, following, hText, hSame,
          endsAfter_of_spellsAfter hFollowing⟩
      rcases List.append_eq_append_iff.mp hSplit with
        ⟨gap', hGapSplit, hV⟩ | ⟨u', hU, hRest⟩
      · -- The gap holds no letter, so the first word comes next.
        cases gap' with
        | nil => exact hFirst hV
        | cons c gap' =>
            rw [hGapSplit, isBlank_append, isBlank_cons] at hGap
            rw [hV] at hHead
            have hAlpha : c.isAlpha = true := hHead
            rw [isBlank_eq_false_of_isAlpha hAlpha] at hGap
            exact absurd hGap.2.1 (by simp)
      · by_cases hNil : u' = []
        · rw [hNil, List.nil_append] at hRest
          exact hFirst hRest.symm
        · rw [hU] at hBlank
          have hBlank' := (endsBlank_append_iff hNil).mp hBlank
          rcases eq_nil_or_exists_of_word hLetters hRest.symm hBlank'
            with hAbsurd | ⟨rest, hRestBlank, rfl⟩
          · exact absurd hAbsurd hNil
          · rcases
                ih (fun w h => hWords w (List.mem_cons_of_mem word h))
                  hFollowing hRestBlank
              with ⟨w, hMem, hWord⟩
            exact ⟨w, List.mem_cons_of_mem word hMem, hWord⟩

/-
  Where a keyword may begin inside a spelling, a letter begins
  one of the words that follow the first.
-/
theorem exists_word_of_spells
    (hWords : ∀ w ∈ words, IsLetters w)
    (hSpells : Spells words (u ++ v))
    (hNotNil : u ≠ [])
    (hBefore : EndsBefore u.getLast?)
    (hHead : v.head?.any Char.isAlpha = true) :
    ∃ w ∈ words.tail, ∃ spelled more,
      v = spelled ++ more ∧ SameWord spelled w ∧ EndsAfter more := by
  have hPlain : ¬ IsDelimiter (u.getLast hNotNil) :=
    plain_of_spells hWords hSpells _
      (List.mem_append_left _ (List.getLast_mem hNotNil))
  have hBlank : EndsBlank u := by
    rw [List.getLast?_eq_some_getLast hNotNil] at hBefore
    rw [EndsBlank, List.getLast?_eq_some_getLast hNotNil]
    rcases Bool.or_eq_true_iff.mp hBefore with hBlank | hParen
    · exact hBlank
    · exact absurd (Or.inr (Or.inr (beq_iff_eq.mp hParen))) hPlain
  cases words with
  | nil => exact absurd hSpells id
  | cons word words =>
      rcases hSpells with ⟨spelled, following, hSplit, hSame, hFollowing⟩
      have hLetters :=
        isLetters_of_sameWord hSame (hWords word List.mem_cons_self)
      rcases eq_nil_or_exists_of_word hLetters hSplit hBlank
        with hAbsurd | ⟨rest, hRestBlank, rfl⟩
      · exact absurd hAbsurd hNotNil
      · exact
          exists_word_of_spellsAfter
            (fun w h => hWords w (List.mem_cons_of_mem word h))
            hFollowing hRestBlank hHead

/-
  An occurrence behind the start of another one is behind the
  end of it, unless it begins like one of the words that
  follow in the other one.
-/
theorem Occurs.length_le_of_lt
    (hWords : ∀ w ∈ words, IsLetters w)
    (hWords' : ∀ w ∈ words', IsLetters w)
    (hOccurs : Occurs words t front keyword after)
    (hOther : Occurs words' t front' keyword' after')
    (hInitial :
      ∀ w ∈ words.tail, initial w ≠ initial (keyword' ++ after'))
    (hLt : front.length < front'.length) :
    (front ++ keyword).length ≤ front'.length := by
  by_contra hNot
  rw [Nat.not_le, List.length_append] at hNot
  have hSplit :
      front ++ (keyword ++ after) = front' ++ (keyword' ++ after') :=
    hOccurs.split.symm.trans hOther.split
  rcases List.append_eq_append_iff.mp hSplit with
    ⟨u, hFront', hBehind⟩ | ⟨u, hFront, -⟩
  · subst hFront'
    rw [List.length_append] at hLt hNot
    have hNotNil : u ≠ [] := by
      rintro rfl
      simp at hLt
    rcases List.append_eq_append_iff.mp hBehind with
      ⟨v, hU, -⟩ | ⟨v, hKeyword, hRest⟩
    · rw [hU, List.length_append] at hNot
      omega
    · have hLast : EndsBefore u.getLast? := by
        have hBefore := hOther.endsBefore
        rw [List.getLast?_append_of_ne_nil _ hNotNil] at hBefore
        exact hBefore
      have hHead := hOther.head?_behind hWords'
      have hShort : v ≠ [] := by
        rintro rfl
        rw [hKeyword, List.append_nil] at hNot
        omega
      rw [hRest, List.head?_append_of_ne_nil _ hShort] at hHead
      have hSpells := hOccurs.spells
      rw [hKeyword] at hSpells
      rcases exists_word_of_spells hWords hSpells hNotNil hLast hHead
        with ⟨w, hMem, spelled, more, rfl, hSame, -⟩
      have hLetters :=
        isLetters_of_sameWord hSame (hWords w (List.mem_of_mem_tail hMem))
      apply hInitial w hMem
      rw [hRest, List.append_assoc, initial_append _ hLetters.1,
        initial_of_sameWord hSame]
  · rw [hFront, List.length_append] at hLt
    omega

------------------------------------------------------------
-- Reading up to Keywords
------------------------------------------------------------

/-
  What is read of a text up to some keywords: all of it, or
  what is in front of the first of their occurrences.
-/
structure Until
    (keywords : List Text)
    (t u : Text) : Prop where
  isPrefix : u <+: t
  least :
    ∀ k ∈ keywords, ∀ front keyword after,
      Occurs k.words t front keyword after →
        u.length ≤ front.length
  reached :
    u = t ∨
      ∃ k ∈ keywords, ∃ keyword after,
        Occurs k.words t u keyword after

/- Reading up to one keyword more. -/
theorem exists_untilKeyword_eq
    {k : Text}
    (hWords : ∀ w ∈ k.words, IsLetters w)
    (hBalanced : Balanced t) :
    ∃ u, untilKeyword k t = .ok u ∧ Until [k] t u := by
  rw [untilKeyword, cutAtKeyword_eq hBalanced]
  by_cases hFree : IsFree k.words t
  · refine ⟨t, ?_, List.prefix_refl t, ?_, .inl rfl⟩
    · rw [hFree]
      rfl
    · intro k' hMem front keyword after hOccurs
      cases List.mem_singleton.mp hMem
      exact
        absurd hOccurs
          ((isFree_iff hWords hBalanced).mp hFree front keyword after)
  · rcases exists_first_of_not_isFree hWords hBalanced hFree
      with ⟨front, keyword, after, hFirst⟩
    refine
      ⟨front, congrArg Except.ok (hFirst.cutOf hWords hBalanced).1,
        ⟨_, hFirst.occurs.split.symm⟩, ?_,
        .inr ⟨k, List.mem_singleton_self k, _, _, hFirst.occurs⟩⟩
    intro k' hMem front' keyword' after' hOther
    cases List.mem_singleton.mp hMem
    exact hFirst.least front' keyword' after' hOther

theorem exists_untilKeywords_eq
    {keywords : List Text}
    (hKeywords : ∀ k ∈ keywords, ∀ w ∈ k.words, IsLetters w)
    (hBalanced : Balanced t) :
    ∃ u, untilKeywords t keywords = .ok u ∧ Until keywords t u := by
  induction keywords with
  | nil =>
      exact
        ⟨t, rfl, List.prefix_refl t,
          fun _ hMem => absurd hMem List.not_mem_nil, .inl rfl⟩
  | cons k keywords ih =>
      rcases
          exists_untilKeyword_eq (hKeywords k List.mem_cons_self)
            hBalanced
        with ⟨head, hHead, hOne⟩
      rcases ih fun k' h => hKeywords k' (List.mem_cons_of_mem k h)
        with ⟨heads, hHeads, hMany⟩
      refine ⟨if head.length ≤ heads.length then head else heads, ?_, ?_⟩
      · rw [untilKeywords, hHead, hHeads]
        rfl
      · split
        · rename_i hLe
          refine ⟨hOne.isPrefix, ?_, ?_⟩
          · intro k' hMem front keyword after hOccurs
            rcases List.mem_cons.mp hMem with rfl | hMem
            · exact
                hOne.least k' (List.mem_singleton_self k') _ _ _ hOccurs
            · exact hLe.trans (hMany.least k' hMem _ _ _ hOccurs)
          · rcases hOne.reached with hAll | ⟨k', hMem, hOccurs⟩
            · exact .inl hAll
            · cases List.mem_singleton.mp hMem
              exact .inr ⟨k, List.mem_cons_self, hOccurs⟩
        · rename_i hLt
          rw [Nat.not_le] at hLt
          refine ⟨hMany.isPrefix, ?_, ?_⟩
          · intro k' hMem front keyword after hOccurs
            rcases List.mem_cons.mp hMem with rfl | hMem
            · exact
                hLt.le.trans
                  (hOne.least k' (List.mem_singleton_self k') _ _ _
                    hOccurs)
            · exact hMany.least k' hMem _ _ _ hOccurs
          · rcases hMany.reached with hAll | ⟨k', hMem, hOccurs⟩
            · exact .inl hAll
            · exact .inr ⟨k', List.mem_cons_of_mem k hMem, hOccurs⟩

/- It ends where a keyword can stand behind it. -/
theorem Until.endsBefore
    {keywords : List Text}
    (hUntil : Until keywords t u)
    (hSplit : t = u ++ v) :
    v = [] ∨ EndsBefore u.getLast? := by
  rcases hUntil.reached with hAll | ⟨k, -, keyword, after, hOccurs⟩
  · rw [hAll] at hSplit
    exact .inl (List.self_eq_append_right.mp hSplit)
  · exact .inr hOccurs.endsBefore

/- Where reading up to keywords ends is determined. -/
theorem Until.unique
    {keywords : List Text}
    (hUntil : Until keywords t u)
    (hOther : Until keywords t v) :
    u = v := by
  have hLe
      {u v : Text}
      (hUntil : Until keywords t u)
      (hOther : Until keywords t v) :
      u.length ≤ v.length := by
    rcases hOther.reached with rfl | ⟨k, hMem, keyword, after, hOccurs⟩
    · exact hUntil.isPrefix.length_le
    · exact hUntil.least k hMem _ _ _ hOccurs
  have hPrefix :=
    List.prefix_of_prefix_length_le hUntil.isPrefix hOther.isPrefix
      (hLe hUntil hOther)
  exact hPrefix.eq_of_length (Nat.le_antisymm (hLe hUntil hOther)
    (hLe hOther hUntil))

/- It is free of the keywords. -/
theorem Until.isFree
    {keywords : List Text}
    {k : Text}
    (hWords : ∀ w ∈ k.words, IsLetters w)
    (hBalanced : Balanced u)
    (hUntil : Until keywords t u)
    (hMem : k ∈ keywords) :
    IsFree k.words u := by
  rw [isFree_iff hWords hBalanced]
  intro front keyword after hOccurs
  rcases hUntil.isPrefix with ⟨v, hSplit⟩
  have hEnd : EndsAfter v ∨ EndsBefore u.getLast? := by
    rcases hUntil.endsBefore hSplit.symm with rfl | hBefore
    · exact .inl rfl
    · exact .inr hBefore
  have hWhole := hOccurs.append_right hWords hEnd
  rw [hSplit] at hWhole
  have hLe := hUntil.least k hMem _ _ _ hWhole
  have hNotNil := ne_nil_of_spells hWords hOccurs.spells
  rw [hOccurs.split, List.length_append, List.length_append] at hLe
  have hPos := List.length_pos_iff.mpr hNotNil
  omega

/- A section begins behind the first keyword that opens it. -/
theorem section?_of_first
    (hOpening : ∀ w ∈ opening.words, IsLetters w)
    (hClosing : ∀ k ∈ closing, ∀ w ∈ k.words, IsLetters w)
    (hBalanced : Balanced t)
    (hFirst : First opening.words t front keyword after) :
    ∃ u,
      Until closing after u ∧
        Text.section? opening closing t = .ok (nonblank? u) := by
  rcases
      exists_untilKeywords_eq hClosing
        (hFirst.occurs.balanced_after hOpening hBalanced)
    with ⟨u, hRead, hUntil⟩
  refine ⟨u, hUntil, ?_⟩
  rw [section?, cutAtKeyword_eq hBalanced]
  simp only [bind, Except.bind, (hFirst.cutOf hOpening hBalanced).2,
    hRead]
  rfl

theorem section?_of_isFree
    (closing : List Text)
    (hBalanced : Balanced t)
    (hFree : IsFree opening.words t) :
    Text.section? opening closing t = .ok none := by
  rw [section?, cutAtKeyword_eq hBalanced, hFree]
  rfl

/- The sections that are found. -/
theorem section?_eq_some_iff
    (hOpening : ∀ w ∈ opening.words, IsLetters w)
    (hClosing : ∀ k ∈ closing, ∀ w ∈ k.words, IsLetters w)
    (hBalanced : Balanced t) :
    Text.section? opening closing t = .ok (some s) ↔
      ∃ front keyword after u,
        First opening.words t front keyword after ∧
          Until closing after u ∧ ¬ IsBlank u ∧ s = trim u := by
  by_cases hFree : IsFree opening.words t
  · rw [section?_of_isFree closing hBalanced hFree]
    refine ⟨fun hNone => absurd hNone (by simp), ?_⟩
    rintro ⟨front, keyword, after, -, hFirst, -⟩
    exact
      absurd hFirst.occurs
        ((isFree_iff hOpening hBalanced).mp hFree _ _ _)
  · rcases exists_first_of_not_isFree hOpening hBalanced hFree
      with ⟨front, keyword, after, hFirst⟩
    rcases section?_of_first hOpening hClosing hBalanced hFirst
      with ⟨u, hUntil, hRead⟩
    rw [hRead, Except.ok.injEq, nonblank?, Option.ite_none_left_eq_some,
      Option.some.injEq]
    constructor
    · rintro ⟨hText, rfl⟩
      exact ⟨front, keyword, after, u, hFirst, hUntil, hText, rfl⟩
    · rintro ⟨front', keyword', after', u', hFirst', hUntil', hText, rfl⟩
      rcases hFirst.unique hOpening hFirst' with ⟨-, rfl⟩
      rw [hUntil.unique hUntil']
      exact ⟨hText, rfl⟩

------------------------------------------------------------
-- Blanks around a Text
------------------------------------------------------------

/- Blanks around a text hold no keyword and begin none. -/
theorem isFree_surround
    {b b' : Text}
    (hWords : ∀ w ∈ words, IsLetters w)
    (hBlank : IsBlank b)
    (hBlank' : IsBlank b')
    (hBalanced : Balanced t)
    (hFree : IsFree words t) :
    IsFree words (b ++ (t ++ b')) := by
  have hEnd := balanced_of_isBlank hBlank'
  have hSeam : Seam t b' :=
    seam_of_startsBlank t (startsBlank_of_isBlank hBlank')
  have hRest : IsFree words (t ++ b') := by
    apply isFree_append hWords hBalanced hFree hEnd
      (isFree_of_isBlank hWords hBlank') fun _ => hSeam
    intro word hMem
    rw [trimStart_of_isBlank hBlank']
    exact startsWord_nil (hWords word (List.mem_of_mem_tail hMem))
  rw [IsFree,
    cutOf_blank_append hWords hBlank (balanced_append hBalanced hEnd),
    hRest]
  rfl

/- What is in a text is in it between blanks as well. -/
theorem isFree_of_surround
    {b b' : Text}
    (hWords : ∀ w ∈ words, IsLetters w)
    (hBlank : IsBlank b)
    (hBlank' : IsBlank b')
    (hBalanced : Balanced t)
    (hFree : IsFree words (b ++ (t ++ b'))) :
    IsFree words t := by
  have hWhole : Balanced (b ++ (t ++ b')) :=
    balanced_append (balanced_of_isBlank hBlank)
      (balanced_append hBalanced (balanced_of_isBlank hBlank'))
  rw [isFree_iff hWords hBalanced]
  intro front keyword after hOccurs
  have hEnd : EndsAfter b' :=
    endsAfter_of_startsBlank (startsBlank_of_isBlank hBlank')
  exact
    (isFree_iff hWords hWhole).mp hFree _ _ _
      ((hOccurs.append_right hWords (.inl hEnd)).blank_append hBlank)

theorem isFree_trim
    (hWords : ∀ w ∈ words, IsLetters w)
    (hBalanced : Balanced t)
    (hFree : IsFree words t) :
    IsFree words (trim t) := by
  rcases exists_blanks_trim t with ⟨b, b', hBlank, hBlank', hSplit⟩
  rw [hSplit, List.append_assoc] at hFree
  exact
    isFree_of_surround hWords hBlank hBlank'
      (balanced_trim_iff.mpr hBalanced) hFree

end Text

end SqlSelect
