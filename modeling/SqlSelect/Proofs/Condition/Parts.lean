import SqlSelect.Proofs.Condition.Layout

/-
  Parts of a condition. A part is a predicate or a text in
  parentheses, with NOT in front of it any number of times,
  and every further NOT turns the value of it round.

  Main statements:
    * `Condition.bare`
    * `Condition.readPart_eq_ok_iff`
    * `Condition.bare_not`
    * `Condition.isPart_not`
    * `Condition.isPart_group`
    * `Condition.readPart_group`
-/

namespace SqlSelect

namespace Condition

------------------------------------------------------------
-- Leading NOTs
------------------------------------------------------------

/-
  Whether the number of leading NOTs in a part is odd, and
  the part without them.
-/
def bare
    (t : Text) : Bool × Text :=
  ((stripNots (Text.trim t)).1,
    Text.trim (stripNots (Text.trim t)).2)

/- Where NOTs are looked for depends on the text ahead only. -/
theorem afterKeyword?_congr
    (keyword : Text)
    {s s' : Cursor}
    (hRest : Text.trimStart s.rest = Text.trimStart s'.rest) :
    (s.afterKeyword? keyword).map Cursor.rest =
      (s'.afterKeyword? keyword).map Cursor.rest := by
  have hSame : s.skipBlanks.rest = s'.skipBlanks.rest := hRest
  simp only [Cursor.afterKeyword?, hSame, Option.map_map]
  rfl

theorem afterNots_of_none
    {s : Cursor}
    (hNone : s.afterKeyword? "NOT".toList = none) :
    afterNots s = (false, s) := by
  rw [afterNots]
  split
  · rfl
  · rename_i after hAfter
    rw [hNone] at hAfter
    exact absurd hAfter (by simp)

theorem afterNots_of_some
    {s after : Cursor}
    (hAfter : s.afterKeyword? "NOT".toList = some after) :
    afterNots s =
      (!(afterNots after).1, (afterNots after).2) := by
  rw [afterNots]
  split
  · rename_i hNone
    rw [hAfter] at hNone
    exact absurd hNone (by simp)
  · rename_i found hFound
    have hSame : after = found := by
      rw [hAfter] at hFound
      exact Option.some.inj hFound
    subst hSame
    rfl

/-
  Blanks in front make no difference to leading NOTs, by the
  recursion over them.
-/
theorem afterNots_congr
    {s s' : Cursor}
    (hRest : Text.trimStart s.rest = Text.trimStart s'.rest) :
    (afterNots s).1 = (afterNots s').1 ∧
      Text.trimStart (afterNots s).2.rest =
        Text.trimStart (afterNots s').2.rest := by
  have hSame :=
    afterKeyword?_congr "NOT".toList hRest
  fun_induction afterNots s generalizing s' with
  | case1 s hNone =>
      rw [hNone, Option.map_none, eq_comm,
        Option.map_eq_none_iff] at hSame
      rw [afterNots_of_none hSame]
      exact ⟨rfl, hRest⟩
  | case2 s after hAfter hLess negated rest hNots ih =>
      rw [hAfter, Option.map_some, eq_comm,
        Option.map_eq_some_iff] at hSame
      rcases hSame with ⟨after', hAfter', hRests⟩
      have hTrim :
          Text.trimStart after.rest =
            Text.trimStart after'.rest := by
        rw [hRests]
      rcases ih hTrim (afterKeyword?_congr _ hTrim)
        with ⟨hFirst, hSecond⟩
      rw [hNots] at hFirst hSecond
      rw [afterNots_of_some hAfter']
      exact ⟨congrArg not hFirst, hSecond⟩

/- A text that does not begin with NOT is bare. -/
theorem bare_of_none
    {t : Text}
    (hNone :
      (Cursor.ofText (Text.trim t)).afterKeyword?
        "NOT".toList = none) :
    bare t = (false, Text.trim t) := by
  rw [bare, stripNots, afterNots_of_none hNone]
  simp [Cursor.ofText]

/- No keyword is next where no letter is. -/
theorem afterKeyword?_eq_none_of_head
    {keyword t : Text}
    (hWords : ∀ w ∈ keyword.words, Text.IsLetters w)
    (hHead : (Text.trimStart t).head?.any Char.isAlpha = false) :
    (Cursor.ofText t).afterKeyword? keyword = none := by
  have hNone :
      delimitedLength? keyword.words (Text.trimStart t) = none :=
    delimitedLength?_eq_none_of_head hWords hHead
  simp only [Cursor.afterKeyword?]
  rw [Option.map_eq_none_iff]
  exact hNone

/- A trimmed text does not begin with a blank. -/
theorem trimStart_trim
    (t : Text) :
    Text.trimStart (Text.trim t) = Text.trim t := by
  have hHead := (Text.isTrimmed_trim t).1
  cases hText : Text.trim t with
  | nil => rfl
  | cons c rest =>
      rw [hText] at hHead
      exact Text.trimStart_of_head (by simpa using hHead)

/-
  What is trimmed of a word, blanks and a text that is not
  blank: the blanks around the whole, and those behind.
-/
theorem exists_trim_word_append
    {k b s : Text}
    (hWord : Text.IsLetters k)
    (hGap : b ≠ [])
    (hBlank : Text.IsBlank b)
    (hText : ¬ Text.IsBlank s) :
    ∃ gap,
      gap ≠ [] ∧ Text.IsBlank gap ∧
        Text.trim (k ++ (b ++ s)) = k ++ (gap ++ Text.trim s) := by
  rcases Text.exists_blanks_trim s
    with ⟨b₁, b₂, hFront, hBehind, hSplit⟩
  refine ⟨b ++ b₁, by simp [hGap],
    Text.isBlank_append.mpr ⟨hBlank, hFront⟩, ?_⟩
  have hWhole :
      k ++ (b ++ s) =
        k ++ ((b ++ b₁) ++ Text.trim s) ++ b₂ := by
    calc
      k ++ (b ++ s) = k ++ (b ++ (b₁ ++ Text.trim s ++ b₂)) := by
        rw [← hSplit]
      _ = _ := by simp
  rw [hWhole, Text.trim_append_right _ hBehind]
  apply Text.trim_eq_of_isTrimmed
  have hNotNil : Text.trim s ≠ [] :=
    fun h => hText (Text.trim_eq_nil_iff.mp h)
  refine ⟨?_, ?_⟩
  · cases k with
    | nil => exact absurd rfl hWord.1
    | cons c k =>
        simp [Text.isBlank_eq_false_of_mem hWord
          List.mem_cons_self]
  · rw [← List.append_assoc, List.getLast?_append]
    have hLast := (Text.isTrimmed_trim s).2
    rw [List.getLast?_eq_some_getLast hNotNil] at hLast ⊢
    exact hLast

/- A further NOT in front makes the number of them odd or even. -/
theorem bare_not
    {k b s : Text}
    (hKeyword : Text.SameWord k "NOT".toList)
    (hGap : b ≠ [])
    (hBlank : Text.IsBlank b)
    (hText : ¬ Text.IsBlank s) :
    bare (k ++ (b ++ s)) = (!(bare s).1, (bare s).2) := by
  have hLetters :=
    Text.isLetters_of_sameWord hKeyword isLetters_not
  rcases exists_trim_word_append hLetters hGap hBlank hText
    with ⟨gap, hNotNil, hGapBlank, hTrim⟩
  let after : Cursor :=
    ⟨k ++ (gap ++ Text.trim s), gap ++ Text.trim s, 0⟩
  have hAfter :
      (Cursor.ofText (k ++ (gap ++ Text.trim s))).afterKeyword?
          "NOT".toList =
        some after := by
    have hWords : ∀ w ∈ Text.words "NOT".toList, Text.IsLetters w := by
      decide
    have hSpells : Text.Spells (Text.words "NOT".toList) k :=
      Text.spells_singleton hKeyword
    have hEnds : EndsAfter (gap ++ Text.trim s) :=
      Text.endsAfter_of_startsBlank
        (Text.startsBlank_append _ hNotNil hGapBlank)
    exact
      (Cursor.afterKeyword?_eq_some_iff hWords).mpr
        ⟨[], k, _, rfl, Text.isBlank_nil, hSpells, hEnds, rfl⟩
  have hSame :
      Text.trimStart after.rest =
        Text.trimStart (Cursor.ofText (Text.trim s)).rest :=
    Text.trimStart_append _ hGapBlank
  rcases afterNots_congr hSame with ⟨hFirst, hSecond⟩
  rw [bare, hTrim, stripNots, afterNots_of_some hAfter, bare,
    stripNots]
  have hRest :
      Text.trim (afterNots after).2.rest =
        Text.trim
          (afterNots (Cursor.ofText (Text.trim s))).2.rest :=
    congrArg Text.trimEnd hSecond
  change (!(afterNots after).1,
    Text.trim (afterNots after).2.rest) = _
  rw [hFirst, hRest]

------------------------------------------------------------
-- Reading a Part
------------------------------------------------------------

variable {env : Environment}
variable {deeper? : Option (Text → Except Error Condition)}
variable {c : Condition}
variable {t : Text}

/-
  A part is read as a predicate, or as what stands between
  its parentheses, with NOT in front of it or without.
-/
theorem readPart_eq_ok_iff :
    readPart env deeper? t = .ok c ↔
      ¬ Text.IsBlank t ∧
        ((Text.enclosed? (bare t).2 = .ok none ∧
            ∃ p, Predicate.ofText env (bare t).2 = .ok p ∧
              c = .atom (bare t).1 .first p) ∨
          ∃ inner deeper d,
            Text.enclosed? (bare t).2 = .ok (some inner) ∧
              ¬ Text.IsBlank inner ∧
              deeper? = some deeper ∧ deeper inner = .ok d ∧
              c = enclosed (d.negatedIf (bare t).1)) := by
  by_cases hBlank : Text.IsBlank t
  · have hNil := Text.trim_eq_nil_iff.mpr hBlank
    simp [readPart, hNil, hBlank]
  · have hNil : Text.trim t ≠ [] :=
      fun h => hBlank (Text.trim_eq_nil_iff.mp h)
    rcases hPart : stripNots (Text.trim t) with ⟨negated, rest⟩
    simp only [readPart, if_neg hNil, bare, hPart, hBlank,
      not_false_eq_true, true_and]
    cases hEnclosed : Text.enclosed? (Text.trim rest) with
    | error e => simp [bind, Except.bind]
    | ok found =>
        cases found with
        | none =>
            cases hPredicate :
                Predicate.ofText env (Text.trim rest) with
            | error e => simp [bind, Except.bind, Except.map]
            | ok p =>
                simp [bind, Except.bind, Except.map, eq_comm]
        | some inner =>
            by_cases hInner : Text.IsBlank inner
            · simp [bind, Except.bind, hInner]
            · cases deeper? with
              | none => simp [bind, Except.bind, hInner]
              | some deeper =>
                  cases hDeeper : deeper inner with
                  | error e =>
                      simp [bind, Except.bind, hInner, hDeeper,
                        Except.map]
                  | ok d =>
                      simp [bind, Except.bind, hInner, hDeeper,
                        Except.map, eq_comm]

/- A text that can be read is not blank. -/
theorem not_isBlank_of_layout
    {rows : List (List Condition)}
    (hReads : ReadsAs env deeper? (layout t) rows) :
    ¬ Text.IsBlank t := by
  intro hBlank
  have hPart : IsPart t :=
    ⟨Text.balanced_of_isBlank hBlank,
      Text.isFree_of_isBlank (by simpa using isLetters_or) hBlank,
      Text.isFree_of_isBlank (by simpa using isLetters_and)
        hBlank⟩
  rw [ReadsAs, layout_of_isPart hPart,
    List.forall₂_cons_left_iff] at hReads
  rcases hReads with ⟨parts, -, hRow, -⟩
  rw [RowReadsAs, List.forall₂_cons_left_iff] at hRow
  rcases hRow with ⟨c, -, hRead, -⟩
  rw [readPart_trim] at hRead
  exact (readPart_eq_ok_iff.mp hRead).1 hBlank

------------------------------------------------------------
-- Texts that are Parts
------------------------------------------------------------

/- A part with NOT in front of it is a part. -/
theorem isPart_not
    {k b s : Text}
    (hKeyword : Text.SameWord k "NOT".toList)
    (hGap : b ≠ [])
    (hBlank : Text.IsBlank b)
    (hPart : IsPart s) :
    IsPart (k ++ (b ++ s)) := by
  have hWords : ∀ w ∈ ["NOT".toList], Text.IsLetters w := by
    simpa using isLetters_not
  have hSpells : Text.Spells ["NOT".toList] k :=
    Text.spells_singleton hKeyword
  have hRest : Text.Balanced (b ++ s) :=
    Text.balanced_append (Text.balanced_of_isBlank hBlank)
      hPart.balanced
  have hFree
      {word : Text}
      (hWord : Text.IsLetters word)
      (hInitial :
        Text.initial word ≠ Text.initial "NOT".toList)
      (hFreeRest : Text.IsFree [word] s) :
      Text.IsFree [word] (k ++ (b ++ s)) := by
    have hLetters : ∀ w ∈ [word], Text.IsLetters w := by
      simpa using hWord
    rw [Text.IsFree,
      Text.cutOf_otherKeyword_append hLetters hWords
        (by simpa using hInitial) hSpells hRest
        (Text.startsBlank_append s hGap hBlank),
      Text.cutOf_blank_append hLetters hBlank hPart.balanced,
      hFreeRest]
    simp [Cut.prepend]
  exact
    ⟨Text.balanced_append
        (Text.balanced_of_plain
          (Text.plain_of_spells hWords hSpells)) hRest,
      hFree isLetters_or (by decide) hPart.free_or,
      hFree isLetters_and (by decide) hPart.free_and⟩

/- A balanced text in parentheses is a part. -/
theorem isPart_group
    (hBalanced : Text.Balanced t) :
    IsPart ('(' :: (t ++ [')'])) :=
  isPart_of_hidden (Text.balanced_group hBalanced)
    (Text.hidden_group hBalanced)

theorem not_isBlank_group
    (t : Text) :
    ¬ Text.IsBlank ('(' :: t) := by
  simp [Text.isBlank_cons]
  intro hBlank
  exact absurd hBlank (by decide)

theorem trim_group
    (t : Text) :
    Text.trim ('(' :: (t ++ [')'])) = '(' :: (t ++ [')']) := by
  apply Text.trim_eq_of_isTrimmed
  refine ⟨rfl, ?_⟩
  rw [← List.cons_append, List.getLast?_append]
  rfl

/- A text in parentheses is bare. -/
theorem bare_group
    (t : Text) :
    bare ('(' :: (t ++ [')'])) =
      (false, '(' :: (t ++ [')'])) := by
  have hNone :
      (Cursor.ofText
        (Text.trim ('(' :: (t ++ [')'])))).afterKeyword?
          "NOT".toList = none := by
    apply afterKeyword?_eq_none_of_head (by decide)
    rw [trimStart_trim, trim_group]
    rfl
  rw [bare_of_none hNone, trim_group]

/- A text in parentheses is read as a part on its own. -/
theorem readPart_group
    {deeper : Text → Except Error Condition}
    (hBalanced : Text.Balanced t)
    (hText : ¬ Text.IsBlank t)
    (hRead : deeper t = .ok c) :
    readPart env (some deeper) ('(' :: (t ++ [')'])) =
      .ok (enclosed c) := by
  have hSame : c.negatedIf false = c := by
    cases c <;> simp [negatedIf]
  apply readPart_eq_ok_iff.mpr
  refine ⟨not_isBlank_group _, Or.inr ⟨t, deeper, c, ?_⟩⟩
  rw [bare_group]
  refine ⟨?_, hText, rfl, hRead, by rw [hSame]⟩
  rw [Text.enclosed?_group [] hBalanced]
  rfl

end Condition

end SqlSelect
