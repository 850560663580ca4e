import SqlSelect.Proofs.Nesting.Composition
import SqlSelect.Proofs.Range.Slices

/-
  The ranges of a keyword among the marks of a text. If the
  first word of the keyword is none of the words that follow
  it, two occurrences of the keyword never overlap, and so the
  ranges at which a text is cut are those of all occurrences.

  Main statements:
    * `Mark.IsKeyword`
    * `Text.length_le_of_spells`
    * `Nesting.mem_rangesAt_iff`
    * `Text.occurs_of_isKeyword`
    * `Text.top_of_isKeyword`
    * `Text.mem_ranges_cutOf_iff`
-/

namespace SqlSelect

open Text

------------------------------------------------------------
-- Overlaps of One Keyword
------------------------------------------------------------

namespace Text

variable {first u k k' after after' : Text}
variable {words : List Text}

/- The first word of a keyword is all of the name that it begins. -/
theorem sameWord_takeWhile_of_spells
    (hFirst : IsLetters first)
    (hSpells : Spells (first :: words) k)
    (hEnds : EndsAfter after) :
    SameWord ((k ++ after).takeWhile isNameChar) first := by
  rcases hSpells with ⟨spelled, following, rfl, hSame, hFollowing⟩
  have hStop : EndsAfter (following ++ after) :=
    endsAfter_append (endsAfter_of_spellsAfter hFollowing) hEnds
  have hNames :=
    isNameChar_of_isLetters (isLetters_of_sameWord hSame hFirst)
  rwa [List.append_assoc,
    takeWhile_isNameChar_append hNames (head?_of_endsAfter hStop)]

/-
  A keyword whose first word does not come again in it does
  not begin inside of its own spelling.
-/
theorem length_le_of_spells
    (hWords : ∀ w ∈ first :: words, IsLetters w)
    (hOther : ∀ w ∈ words, ¬ SameWord w first)
    (hSplit : k ++ after = u ++ (k' ++ after'))
    (hSpells : Spells (first :: words) k)
    (hEnds : EndsAfter after)
    (hSpells' : Spells (first :: words) k')
    (hEnds' : EndsAfter after')
    (hNotNil : u ≠ [])
    (hBefore : EndsBefore u.getLast?) :
    k.length ≤ u.length := by
  by_contra hLt
  rw [Nat.not_le] at hLt
  rcases List.append_eq_append_iff.mp hSplit with
    ⟨v, hU, -⟩ | ⟨v, rfl, hRest⟩
  · rw [hU, List.length_append] at hLt
    omega
  · have hSome : v ≠ [] := by
      rintro rfl
      rw [List.append_nil] at hLt
      omega
    -- What begins inside is one of the other words.
    have hHead : v.head?.any Char.isAlpha = true := by
      have hFront : (v ++ after).head? = v.head? :=
        List.head?_append_of_ne_nil v hSome
      rw [← hFront, ← hRest,
        List.head?_append_of_ne_nil _ (ne_nil_of_spells hWords hSpells')]
      exact head?_of_spells hWords hSpells'
    rcases exists_word_of_spells hWords hSpells hNotNil hBefore hHead
      with ⟨w, hMem, spelled, more, rfl, hSame, hMore⟩
    have hStop := endsAfter_append hMore hEnds
    have hLetters :=
      isLetters_of_sameWord hSame (hWords w (List.mem_of_mem_tail hMem))
    have hWord :=
      sameWord_takeWhile_of_spells (hWords first List.mem_cons_self)
        hSpells' hEnds'
    rw [hRest, List.append_assoc,
      takeWhile_isNameChar_append (isNameChar_of_isLetters hLetters)
        (head?_of_endsAfter hStop)]
      at hWord
    exact hOther w hMem (hSame.symm.trans hWord)

end Text

------------------------------------------------------------
-- Cuts at Occurrences
------------------------------------------------------------

namespace Cut

/- The ranges of a cut of the text from a byte on. -/
def rangesAt
    (start : Nat)
    (cut : Cut) : List Range :=
  rangesFrom (start + byteSize cut.head) cut.tail

theorem rangesAt_zero
    (cut : Cut) :
    cut.rangesAt 0 = cut.ranges := by
  rw [rangesAt, Nat.zero_add, ranges]

theorem rangesAt_prepend
    (start : Nat)
    (t : Text)
    (cut : Cut) :
    (cut.prepend t).rangesAt start =
      cut.rangesAt (start + byteSize t) := by
  simp only [rangesAt, prepend, byteSize_append, Nat.add_assoc]

theorem rangesAt_occurrence
    (start : Nat)
    (keyword : Text)
    (cut : Cut) :
    (cut.occurrence keyword).rangesAt start =
      ⟨start, start + byteSize keyword⟩ ::
        cut.rangesAt (start + byteSize keyword) := by
  simp only [rangesAt, occurrence, byteSize_nil, Nat.add_zero,
    rangesFrom]

/- No keyword begins below the top level. -/
theorem ofMarks_hidden_append
    {words : List Text}
    {previous : Option Char}
    {ms : List Mark}
    (rest : List Mark)
    (hHidden : ∀ m ∈ ms, m.top = false) :
    ofMarks words previous (ms ++ rest) =
      prepend (Mark.text ms)
        (ofMarks words (lastOr previous (Mark.text ms)) rest) := by
  induction ms generalizing previous with
  | nil => rfl
  | cons m ms ih =>
      have hNone :
          occurrenceLength? words previous (m :: (ms ++ rest)) = none := by
        simp [occurrenceLength?, hHidden m List.mem_cons_self]
      rw [List.cons_append, ofMarks, hNone,
        ih fun m' hMem => hHidden m' (List.mem_cons_of_mem m hMem)]
      simp only [prepend_prepend]
      exact
        congrArg
          (fun last =>
            prepend (Mark.text (m :: ms)) (ofMarks words last rest))
          (lastOr_append previous [m.char] (Mark.text ms))

end Cut

namespace Nesting

variable {n next : Nesting}
variable {previous : Option Char}
variable {words : List Text}
variable {c : Char}
variable {t keyword after : Text}

section Behind

variable {first k front rest keyword' after' : Text}

/- Behind the first occurrence a text has those of its rest. -/
theorem Occurs.behind_iff
    (hWords : ∀ w ∈ words, IsLetters w)
    (hFirst : n.Occurs previous words t [] k after) :
    n.Occurs previous words t (k ++ rest) keyword' after' ↔
      outside.Occurs k.getLast? words after rest keyword' after' := by
  have hOutside : n = outside := Option.some.inj hFirst.run
  have hSplit : t = k ++ after := hFirst.split
  have hRun :=
    balanced_of_plain (plain_of_spells hWords hFirst.spells)
  have hWhole : n.run (k ++ rest) = outside.run rest := by
    rw [hOutside, run_append, hRun, Option.bind_some]
  have hLast :
      Cut.lastOr previous (k ++ rest) = Cut.lastOr k.getLast? rest := by
    have hSome := ne_nil_of_spells hWords hFirst.spells
    rw [← Cut.lastOr_append, Cut.lastOr, Cut.lastOr,
      List.getLast?_eq_some_getLast hSome, Option.some_or, Cut.lastOr]
  constructor
  · intro hOccurs
    have hBoth := hSplit.symm.trans hOccurs.split
    rw [List.append_assoc] at hBoth
    exact
      { split := List.append_cancel_left hBoth
        run := hWhole ▸ hOccurs.run
        endsBefore := hLast ▸ hOccurs.endsBefore
        spells := hOccurs.spells
        endsAfter := hOccurs.endsAfter }
  · intro hOccurs
    exact
      { split := by rw [hSplit, hOccurs.split, List.append_assoc]
        run := hWhole.trans hOccurs.run
        endsBefore := hLast.symm ▸ hOccurs.endsBefore
        spells := hOccurs.spells
        endsAfter := hOccurs.endsAfter }

/- One keyword only occurs at the beginning of a text. -/
theorem Occurs.eq_of_nil
    (hWords : ∀ w ∈ words, IsLetters w)
    (hFirst : n.Occurs previous words t [] k after)
    (hOccurs : n.Occurs previous words t [] keyword' after') :
    keyword' = k ∧ after' = after := by
  have hBoth : keyword' ++ after' = k ++ after :=
    hOccurs.split.symm.trans hFirst.split
  have hFound :=
    delimitedLength?_of_spelled hWords hFirst.spells hFirst.endsAfter
  rw [← hBoth,
    delimitedLength?_of_spelled hWords hOccurs.spells hOccurs.endsAfter]
    at hFound
  exact List.append_inj hBoth (Option.some.inj hFound)

/- Every other occurrence is behind the one at the beginning. -/
theorem Occurs.prefix_of_ne_nil
    (hWords : ∀ w ∈ first :: words, IsLetters w)
    (hOther : ∀ w ∈ words, ¬ SameWord w first)
    (hFirst : n.Occurs previous (first :: words) t [] k after)
    (hOccurs : n.Occurs previous (first :: words) t front keyword' after')
    (hNotNil : front ≠ []) :
    k <+: front := by
  have hBoth : k ++ after = front ++ (keyword' ++ after') :=
    hFirst.split.symm.trans hOccurs.split
  have hBefore : EndsBefore front.getLast? := by
    have hEnds := hOccurs.endsBefore
    rwa [Cut.lastOr, List.getLast?_eq_some_getLast hNotNil,
      Option.some_or, ← List.getLast?_eq_some_getLast hNotNil] at hEnds
  have hLe :=
    length_le_of_spells hWords hOther hBoth hFirst.spells
      hFirst.endsAfter hOccurs.spells hOccurs.endsAfter hNotNil hBefore
  exact
    List.prefix_of_prefix_length_le ⟨after, hBoth⟩
      (List.prefix_append _ _) hLe

end Behind

/- The range is that of an occurrence, from a byte on. -/
def IsRange
    (n : Nesting)
    (previous : Option Char)
    (words : List Text)
    (t : Text)
    (start : Nat)
    (r : Range) : Prop :=
  ∃ front keyword after,
    n.Occurs previous words t front keyword after ∧
      r =
        ⟨start + byteSize front,
          start + byteSize front + byteSize keyword⟩

variable {first : Text}
variable {r : Range}
variable {start : Nat}

theorem isRange_of_first_iff
    {k : Text}
    (hWords : ∀ w ∈ first :: words, IsLetters w)
    (hOther : ∀ w ∈ words, ¬ SameWord w first)
    (hFirst : n.Occurs previous (first :: words) t [] k after) :
    n.IsRange previous (first :: words) t start r ↔
      r = ⟨start, start + byteSize k⟩ ∨
        outside.IsRange k.getLast? (first :: words) after
          (start + byteSize k) r := by
  constructor
  · rintro ⟨front, keyword, after', hAny, rfl⟩
    by_cases hNil : front = []
    · subst hNil
      rcases hFirst.eq_of_nil hWords hAny with ⟨rfl, rfl⟩
      exact .inl rfl
    · rcases hFirst.prefix_of_ne_nil hWords hOther hAny hNil with
        ⟨rest, rfl⟩
      have hLater := (hFirst.behind_iff hWords).mp hAny
      refine .inr ⟨rest, keyword, after', hLater, ?_⟩
      simp only [byteSize_append, Nat.add_assoc]
  · rintro (rfl | ⟨front, keyword, after', hLater, rfl⟩)
    · exact ⟨[], k, after, hFirst, rfl⟩
    · refine
        ⟨k ++ front, keyword, after',
          (hFirst.behind_iff hWords).mpr hLater, ?_⟩
      simp only [byteSize_append, Nat.add_assoc]

theorem isRange_cons_iff
    (hStep : n.step c = some next)
    (hNone :
      ∀ keyword after,
        ¬ n.Occurs previous words (c :: t) [] keyword after) :
    n.IsRange previous words (c :: t) start r ↔
      next.IsRange (some c) words t (start + c.utf8Size) r := by
  constructor
  · rintro ⟨front, keyword, after, hAny, rfl⟩
    cases front with
    | nil => exact absurd hAny (hNone keyword after)
    | cons d front =>
        have hSame : c = d := (List.cons.inj hAny.split).1
        subst hSame
        refine
          ⟨front, keyword, after, (occurs_cons_iff hStep).mp hAny, ?_⟩
        simp only [byteSize_cons, Nat.add_assoc]
  · rintro ⟨front, keyword, after, hAny, rfl⟩
    refine
      ⟨c :: front, keyword, after, (occurs_cons_iff hStep).mpr hAny, ?_⟩
    simp only [byteSize_cons, Nat.add_assoc]

theorem not_isRange_nil
    (hWords : ∀ w ∈ words, IsLetters w) :
    ¬ n.IsRange previous words [] start r := by
  rintro ⟨front, keyword, after, hAny, -⟩
  exact not_occurs_nil hWords hAny

/- The ranges of the cut are those of all occurrences. -/
theorem mem_rangesAt_iff
    (hWords : ∀ w ∈ first :: words, IsLetters w)
    (hOther : ∀ w ∈ words, ¬ SameWord w first)
    (hRun : n.run t = some outside) :
    r ∈ (Cut.ofMarks (first :: words) previous (n.marking t)).rangesAt
        start ↔
      n.IsRange previous (first :: words) t start r := by
  induction n, previous, t, hRun using occurs_induction hWords
    generalizing start with
  | nil previous =>
      rw [marking, Cut.ofMarks]
      exact iff_of_false List.not_mem_nil (not_isRange_nil hWords)
  | occurs n previous t k after hRun hFirst hBehind ih =>
      rw [ofMarks_of_occurs hWords hRun hFirst, Cut.rangesAt_occurrence,
        List.mem_cons, isRange_of_first_iff hWords hOther hFirst]
      exact or_congr_right ih
  | cons n next previous c t hRun hStep hRest hNone ih =>
      have hSize : byteSize [c] = c.utf8Size := Nat.add_zero _
      rw [ofMarks_of_not_occurs hWords hRun hStep hNone,
        Cut.rangesAt_prepend, hSize, isRange_cons_iff hStep hNone]
      exact ih

end Nesting

------------------------------------------------------------
-- Keywords among Marks
------------------------------------------------------------

/-
  The marks in the middle spell the keyword, from a character
  at the top level on. In front of them is a blank, a closing
  parenthesis or nothing, and behind them a blank, an opening
  parenthesis or nothing, at whatever level these are.
-/
structure Mark.IsKeyword
    (words : List Text)
    (before covered after : List Mark) : Prop where
  top : covered.head?.any Mark.top = true
  endsBefore : EndsBefore (Mark.text before).getLast?
  spells : Spells words (Mark.text covered)
  endsAfter : EndsAfter (Mark.text after)

/- A walk is outside in front of a mark at the top level. -/
theorem Nesting.run_of_marking_append
    {n : Nesting}
    {t : Text}
    {m : Mark}
    {before rest : List Mark}
    (hRun : n.run t = some outside)
    (hMarks : n.marking t = before ++ m :: rest)
    (hTop : m.top = true) :
    n.run (Mark.text before) = some outside := by
  induction before generalizing n t with
  | nil =>
      cases t with
      | nil => cases hMarks
      | cons c t =>
          have hMark := (List.cons.inj hMarks).1
          rw [← hMark] at hTop
          exact congrArg some (of_decide_eq_true hTop).1
  | cons b before ih =>
      cases t with
      | nil => cases hMarks
      | cons c t =>
          rcases exists_step_of_run hRun with ⟨next, hStep, hRest⟩
          rw [marking_cons t hStep] at hMarks
          rcases List.cons.inj hMarks with ⟨rfl, hLater⟩
          change n.run (c :: Mark.text before) = _
          rw [run_cons, hStep]
          exact ih hRest hLater

namespace Text

variable {words : List Text}
variable {t front keyword behind : Text}
variable {before covered after : List Mark}

/- Where a keyword occurs, its marks are among those of the text. -/
theorem Occurs.isKeyword
    (hWords : ∀ w ∈ words, IsLetters w)
    (hBalanced : Balanced t)
    (hOccurs : Occurs words t front keyword behind) :
    marking t =
        marking front ++ (Nesting.allTop keyword ++ marking behind) ∧
      Mark.IsKeyword words (marking front) (Nesting.allTop keyword)
        (marking behind) := by
  have hPlain := plain_of_spells hWords hOccurs.spells
  constructor
  · rw [hOccurs.split, marking_append _ hOccurs.balanced,
      marking_append _ (balanced_of_plain hPlain),
      marking_of_plain hPlain]
  · refine
      { top := ?_
        endsBefore := ?_
        spells := ?_
        endsAfter := ?_ }
    · cases keyword with
      | nil => exact absurd rfl (ne_nil_of_spells hWords hOccurs.spells)
      | cons c keyword => rfl
    · rw [text_marking hOccurs.balanced]
      exact hOccurs.endsBefore
    · rw [Nesting.text_allTop]
      exact hOccurs.spells
    · rw [text_marking (hOccurs.balanced_after hWords hBalanced)]
      exact hOccurs.endsAfter

/- Marks that spell a keyword are those of an occurrence. -/
theorem occurs_of_isKeyword
    (hBalanced : Balanced t)
    (hMarks : marking t = before ++ (covered ++ after))
    (hKeyword : Mark.IsKeyword words before covered after) :
    Occurs words t (Mark.text before) (Mark.text covered)
      (Mark.text after) := by
  have hTop := hKeyword.top
  refine
    { split := ?_
      balanced := ?_
      endsBefore := hKeyword.endsBefore
      spells := hKeyword.spells
      endsAfter := hKeyword.endsAfter }
  · have hText := text_marking hBalanced
    rw [hMarks] at hText
    simpa [Mark.text] using hText.symm
  · cases covered with
    | nil => cases hTop
    | cons m covered =>
        exact Nesting.run_of_marking_append hBalanced hMarks hTop

/- Every character of a keyword is at the top level. -/
theorem top_of_isKeyword
    (hWords : ∀ w ∈ words, IsLetters w)
    (hBalanced : Balanced t)
    (hMarks : marking t = before ++ (covered ++ after))
    (hKeyword : Mark.IsKeyword words before covered after) :
    ∀ m ∈ covered, m.top = true := by
  have hOccurs := occurs_of_isKeyword hBalanced hMarks hKeyword
  have hSame := (hOccurs.isKeyword hWords hBalanced).1
  rw [hMarks] at hSame
  have hFront : before.length = (marking (Mark.text before)).length := by
    have hText := congrArg List.length (text_marking hOccurs.balanced)
    simpa [Mark.text] using hText.symm
  have hBehind := (List.append_inj hSame hFront).2
  have hCovered :
      covered.length =
        (Nesting.allTop (Mark.text covered)).length := by
    simp [Nesting.allTop, Mark.text]
  rw [(List.append_inj hBehind hCovered).1]
  intro m hMem
  rcases List.mem_map.mp hMem with ⟨c, -, rfl⟩
  rfl

/- The ranges at which a text is cut are those of its keywords. -/
theorem mem_ranges_cutOf_iff
    {first : Text}
    {r : Range}
    (hWords : ∀ w ∈ first :: words, IsLetters w)
    (hOther : ∀ w ∈ words, ¬ SameWord w first)
    (hBalanced : Balanced t) :
    r ∈ (cutOf (first :: words) t).ranges ↔
      ∃ before covered after,
        marking t = before ++ (covered ++ after) ∧
          Mark.IsKeyword (first :: words) before covered after ∧
          r =
            ⟨byteSize (Mark.text before),
              byteSize (Mark.text before) +
                byteSize (Mark.text covered)⟩ := by
  rw [← Cut.rangesAt_zero, cutOf, marking,
    Nesting.mem_rangesAt_iff hWords hOther hBalanced]
  simp only [Nesting.IsRange, ← occurs_iff_outside, Nat.zero_add]
  constructor
  · rintro ⟨front, keyword, behind, hOccurs, rfl⟩
    rcases hOccurs.isKeyword hWords hBalanced with ⟨hMarks, hKeyword⟩
    refine ⟨_, _, _, hMarks, hKeyword, ?_⟩
    rw [text_marking hOccurs.balanced, Nesting.text_allTop]
  · rintro ⟨before, covered, after, hMarks, hKeyword, rfl⟩
    exact
      ⟨_, _, _, occurs_of_isKeyword hBalanced hMarks hKeyword, rfl⟩

end Text

end SqlSelect
