import SqlSelect.Proofs.Nesting.Composition
import SqlSelect.Proofs.Recall.Fields
import SqlSelect.Proofs.Selection.Operands

/-
  Texts that stand for an item of the select list. Lists and
  conditions cut such a text out in ways of their own, as a
  piece between commas, as the words in front of a direction
  and as an operand in front of a comparison. A text that all
  of them leave whole stands for one item in all places, if
  it is looked up as this item.

  Main statements:
    * `Item.IsRead`
    * `Environment.StandsFor`
    * `Text.IsWhole`
    * `Text.IsWhole.standsFor`
-/

namespace SqlSelect

------------------------------------------------------------
-- What It Is to Stand for an Item
------------------------------------------------------------

/- The text is read as one item, and is a list of that item. -/
def Item.IsRead
    (env : Environment)
    (ordered : Bool)
    (t : Text)
    (item : Item) : Prop :=
  Item.readItem env ordered t = .ok [item] ∧
    ItemList.ofText env ordered t = .ok ⟨false, [item]⟩

/-
  The text stands for the item. Between blanks it is read as
  the item itself, and in an order as the item with the
  direction behind it, or upwards if there is none. In front
  of a comparison it is the column of the item that is
  compared, and whether the condition is read depends on what
  follows only.
-/
structure Environment.StandsFor
    (env : Environment)
    (x : Text)
    (item : Item) : Prop where
  grouped :
    ∀ t,
      Text.trim t = x →
        Item.IsRead env false t item
  ordered :
    ∀ t,
      Text.trim t = x →
        Item.IsRead env true t
          { item with direction := some .ascending }
  directed :
    ∀ t gap word direction,
      Text.trim t = x ++ (gap ++ word) →
        gap ≠ [] →
        Text.IsBlank gap →
        Direction.ofWord? word = some direction →
        Item.IsRead env true t
          { item with direction := some direction }
  compared :
    ∀ t rest c,
      Text.trim t = x ++ rest →
        Stop.Halts Cursor.endsOperand rest →
        Condition.IsPart t →
        (Condition.ofText env t = .ok c ↔
          ∃ p,
            Predicate.readComparison env (x ++ rest) item.columnName
                ⟨x ++ rest, Text.trimStart rest, 0⟩ = .ok p ∧
              p.left = item.columnName ∧ c = .atom false .first p)

------------------------------------------------------------
-- Words in Front of a Text
------------------------------------------------------------

namespace Text

/- The run of characters of a name in front of the text. -/
def leadingWord
    (t : Text) : Text :=
  t.takeWhile isNameChar

/- What follows a text that ends a word leaves the word. -/
theorem leadingWord_append
    {s : Text}
    (t : Text)
    (hEnds : s.any (fun c => !isNameChar c) = true) :
    leadingWord (s ++ t) = leadingWord s := by
  rw [leadingWord, leadingWord, List.takeWhile_append, if_neg]
  intro hAll
  have hSame : s.takeWhile isNameChar = s :=
    (List.takeWhile_prefix isNameChar).eq_of_length hAll
  rw [List.any_eq_true] at hEnds
  rcases hEnds with ⟨c, hMem, hOther⟩
  rw [List.takeWhile_eq_self_iff] at hSame
  simp [hSame c hMem] at hOther

/- A keyword that begins a text is the leading word. -/
theorem delimitedLength?_eq_none_of_leadingWord
    {word t : Text}
    (hLetters : IsLetters word)
    (hOther : ¬ SameWord (leadingWord t) word) :
    delimitedLength? [word] t = none := by
  cases hFound : delimitedLength? [word] t with
  | none => rfl
  | some length =>
      exact
        absurd (sameWord_takeWhile_of_delimitedLength? hLetters hFound)
          hOther

theorem afterKeyword?_eq_none_of_leadingWord
    {word t : Text}
    (hLetters : IsLetters word)
    (hWords : word.words = [word])
    (hStart : trimStart t = t)
    (hOther : ¬ SameWord (leadingWord t) word) :
    (Cursor.ofText t).afterKeyword? word = none := by
  have hSkip : (Cursor.ofText t).skipBlanks = Cursor.ofText t :=
    congrArg (fun u => (⟨t, u, 0⟩ : Cursor)) hStart
  simp only [Cursor.afterKeyword?, hSkip, hWords]
  simp only [Cursor.ofText,
    delimitedLength?_eq_none_of_leadingWord hLetters hOther,
    Option.map_none]

theorem noneAtTop_append
    {separator : Char}
    {s t : Text}
    (hBalanced : Balanced s)
    (hFirst : NoneAtTop separator s)
    (hSecond : NoneAtTop separator t) :
    NoneAtTop separator (s ++ t) := by
  rw [NoneAtTop, marking_append t hBalanced]
  intro m hMem
  rcases List.mem_append.mp hMem with h | h
  · exact hFirst m h
  · exact hSecond m h

theorem noneAtTop_of_notMem
    {separator : Char}
    {t : Text}
    (hBalanced : Balanced t)
    (hNone : separator ∉ t) :
    NoneAtTop separator t := by
  rintro m hMem ⟨-, hSame⟩
  apply hNone
  rw [← hSame, ← text_marking hBalanced]
  exact List.mem_map_of_mem hMem

/- No comma is among blanks and characters of names. -/
theorem noComma_of_forall
    {t : Text}
    (hPlain :
      ∀ c ∈ t, SqlSelect.isBlank c = true ∨ isNameChar c = true) :
    NoneAtTop ',' t := by
  have hComma : SqlSelect.isBlank ',' = false ∧ isNameChar ',' = false := by
    decide +kernel
  apply noneAtTop_of_notMem
  · refine balanced_of_plain fun c hMem => ?_
    rcases hPlain c hMem with hBlank | hName
    · exact not_isDelimiter_of_isBlank hBlank
    · exact not_isDelimiter_of_isNameChar hName
  · intro hMem
    simpa [hComma] using hPlain ',' hMem

end Text

------------------------------------------------------------
-- Texts that Are Left Whole
------------------------------------------------------------

namespace Text

/- Words that are taken away in front of what they stand by. -/
def guardWords : List Text :=
  ["DISTINCT".toList, "NOT".toList, "PARAMETER".toList]

/-
  The text is left whole: it is an operand without a comma at
  the top level, is not in parentheses, and has a word in
  front that nothing takes away.
-/
structure IsWhole
    (x : Text) : Prop where
  left : Predicate.IsLeft x
  trimmed : trim x = x
  noComma : NoneAtTop ',' x
  open_ne : x.head? ≠ some '('
  ends : x.any (fun c => !isNameChar c) = true
  avoids : Name.Avoids guardWords (leadingWord x)

variable {x : Text}

/- There is no blank at the top level of an operand. -/
theorem passes_isBlank
    (hLeft : Predicate.IsLeft x) :
    Nesting.outside.Passes SqlSelect.isBlank x := by
  intro m hMem hTop
  have hEnds := hLeft.passes m hMem hTop
  simp only [Cursor.endsOperand, Bool.or_eq_false_iff] at hEnds
  exact hEnds.1

theorem IsWhole.topWords_eq
    (hWhole : IsWhole x) :
    topWords x = .ok ⟨[([], x)], []⟩ :=
  topWords_word hWhole.left.some hWhole.left.balanced
    (passes_isBlank hWhole.left)

/- Nothing is taken away in front, whatever follows. -/
theorem IsWhole.afterKeyword?_append
    {word : Text}
    (hWhole : IsWhole x)
    (t : Text)
    (hGuard : word ∈ guardWords) :
    (Cursor.ofText (x ++ t)).afterKeyword? word = none := by
  have hAll :
      ∀ word ∈ guardWords, IsLetters word ∧ word.words = [word] := by
    decide
  rcases hAll word hGuard with ⟨hLetters, hWords⟩
  apply afterKeyword?_eq_none_of_leadingWord hLetters hWords
    (hWhole.left.trimStart_append t)
  rw [leadingWord_append t hWhole.ends]
  exact hWhole.avoids word hGuard

/- What follows does not bring parentheses in front. -/
theorem IsWhole.head?_append
    (hWhole : IsWhole x)
    (t : Text) :
    (x ++ t).head? ≠ some '(' := by
  have hOpen := hWhole.open_ne
  have hSome := hWhole.left.some
  cases x with
  | nil => exact absurd rfl hSome
  | cons c x => simpa using hOpen

end Text

------------------------------------------------------------
-- Items
------------------------------------------------------------

namespace Item

variable {env : Environment}
variable {x t : Text}
variable {item : Item}

/- Blanks around an item make no difference. -/
theorem readItem_trim
    (ordered : Bool)
    (t : Text) :
    readItem env ordered (Text.trim t) = readItem env ordered t := by
  simp only [readItem, Text.trim_trim]

theorem ofText_trim
    (ordered : Bool)
    (t : Text) :
    ItemList.ofText env ordered (Text.trim t) =
      ItemList.ofText env ordered t := by
  simp only [ItemList.ofText, Text.trim_trim]

/- What is read between blanks is read with them. -/
theorem IsRead.of_trim
    {ordered : Bool}
    (hTrim : Text.trim t = x)
    (hRead : IsRead env ordered x item) :
    IsRead env ordered t item := by
  rw [IsRead, ← readItem_trim, ← ofText_trim, hTrim]
  exact hRead

/- A text that is one piece is the list of its item. -/
theorem isRead_of_readItem
    {ordered : Bool}
    (hSome : x ≠ [])
    (hTrim : Text.trim x = x)
    (hSplit : splitDistinct x = (false, x))
    (hBalanced : Text.Balanced x)
    (hNone : Text.NoneAtTop ',' x)
    (hRead : readItem env ordered x = .ok [item]) :
    IsRead env ordered x item := by
  refine ⟨hRead, ?_⟩
  rw [ItemList.ofText_single ordered hSome hTrim hSplit hBalanced
    hNone, hRead]
  rfl

end Item

namespace Direction

/- A direction is a word. -/
theorem isLetters_of_ofWord?
    {word : Text}
    {direction : Direction}
    (hFound : ofWord? word = some direction) :
    Text.IsLetters word := by
  rw [ofWord?] at hFound
  split_ifs at hFound with hUp hDown
  · exact Text.isLetters_of_sameWord hUp (by decide)
  · exact Text.isLetters_of_sameWord hDown (by decide)

end Direction

namespace Text

variable {env : Environment}
variable {x : Text}
variable {item : Item}

/- No DISTINCT stands in front of such a text. -/
theorem IsWhole.splitDistinct_eq
    (hWhole : IsWhole x) :
    Item.splitDistinct x = (false, x) := by
  have hGuard :=
    hWhole.afterKeyword?_append []
      (show "DISTINCT".toList ∈ guardWords by decide)
  rw [List.append_nil] at hGuard
  simp only [Item.splitDistinct, hGuard]

/- Nothing is cut off at the end of a text that is left whole. -/
theorem IsWhole.readItem_eq
    (hWhole : IsWhole x)
    (ordered : Bool) :
    Item.readItem env ordered x =
      (Item.readAliased env x none).map fun items =>
        if ordered then
          items.map fun item =>
            { item with direction := some .ascending }
        else items :=
  Item.readItem_of_cuts ordered hWhole.left.some hWhole.trimmed
    (Item.cutDirection_word hWhole.topWords_eq)
    (Item.cutAlias_word hWhole.topWords_eq)

/- A text that is left whole is the list of its item. -/
theorem IsWhole.isRead
    {ordered : Bool}
    (hWhole : IsWhole x)
    (hRead : Item.readItem env ordered x = .ok [item]) :
    Item.IsRead env ordered x item :=
  Item.isRead_of_readItem hWhole.left.some hWhole.trimmed
    hWhole.splitDistinct_eq hWhole.left.balanced hWhole.noComma hRead

/- A text with a word behind it has no blanks at its ends. -/
theorem IsWhole.trim_append_word
    {word : Text}
    (hWhole : IsWhole x)
    (gap : Text)
    (hLetters : IsLetters word) :
    trim (x ++ (gap ++ word)) = x ++ (gap ++ word) := by
  have hTrimmed := isTrimmed_trim x
  rw [hWhole.trimmed] at hTrimmed
  exact
    trim_eq_of_isTrimmed
      (isTrimmed_append_append gap hWhole.left.some hLetters.1 hTrimmed
        (isTrimmed_of_forall fun _ hMem =>
          isBlank_eq_false_of_mem hLetters hMem))

/- A direction behind the text is cut off, and the text is read. -/
theorem IsWhole.isRead_directed
    {gap word : Text}
    {direction : Direction}
    (hWhole : IsWhole x)
    (hGap : gap ≠ [])
    (hBlank : IsBlank gap)
    (hFound : Direction.ofWord? word = some direction)
    (hRead : Item.readAliased env x none = .ok [item]) :
    Item.IsRead env true (x ++ (gap ++ word))
      { item with direction := some direction } := by
  have hLetters := Direction.isLetters_of_ofWord? hFound
  have hWord : Balanced word :=
    balanced_of_plain (plain_of_isLetters hLetters)
  have hPasses : Nesting.outside.Passes SqlSelect.isBlank word :=
    Nesting.passes_of_forall hWord fun c hMem =>
      isBlank_eq_false_of_mem hLetters hMem
  have hEnd : Balanced (gap ++ word) :=
    balanced_append (balanced_of_isBlank hBlank) hWord
  have hWords :=
    topWords_pair hWhole.left.some hWhole.left.balanced
      (passes_isBlank hWhole.left) hGap hBlank hLetters.1 hWord hPasses
  have hSome : x ++ (gap ++ word) ≠ [] :=
    List.append_ne_nil_of_left_ne_nil hWhole.left.some _
  have hTrim := hWhole.trim_append_word gap hLetters
  have hSplit :
      Item.splitDistinct (x ++ (gap ++ word)) =
        (false, x ++ (gap ++ word)) := by
    simp only [Item.splitDistinct,
      hWhole.afterKeyword?_append (gap ++ word)
        (show "DISTINCT".toList ∈ guardWords by decide)]
  have hComma : NoneAtTop ',' (gap ++ word) := by
    apply noComma_of_forall
    intro c hMem
    exact
      (List.mem_append.mp hMem).imp (isBlank_iff.mp hBlank c)
        (isNameChar_of_isLetters hLetters c)
  refine
    Item.isRead_of_readItem hSome hTrim hSplit
      (balanced_append hWhole.left.balanced hEnd)
      (noneAtTop_append hWhole.left.balanced hWhole.noComma hComma) ?_
  have hCut :
      Item.cutDirection (x ++ (gap ++ word)) = .ok (x, direction) := by
    rw [Item.cutDirection, hWords]
    simp [Except.map, Words.words, Words.through, hFound]
  unfold Item.readItem
  simp only [hTrim, if_neg hSome, hCut,
    Item.cutAlias_word hWhole.topWords_eq, hRead, bind, Except.bind]
  rfl

/-
  A text that is left whole stands for the item that it is
  looked up as.
-/
theorem IsWhole.standsFor
    (hWhole : IsWhole x)
    (hItem : Item.readAliased env x none = .ok [item])
    (hField : env.fieldName x = .ok item.columnName) :
    env.StandsFor x item where
  grouped t hTrim := by
    refine Item.IsRead.of_trim hTrim (hWhole.isRead ?_)
    rw [hWhole.readItem_eq, hItem]
    rfl
  ordered t hTrim := by
    refine Item.IsRead.of_trim hTrim (hWhole.isRead ?_)
    rw [hWhole.readItem_eq, hItem]
    rfl
  directed t gap word direction hTrim hGap hBlank hFound :=
    Item.IsRead.of_trim hTrim
      (hWhole.isRead_directed hGap hBlank hFound hItem)
  compared t rest c hTrim hHalts hPart := by
    have hSome : trim t ≠ [] := by
      rw [hTrim]
      exact List.append_ne_nil_of_left_ne_nil hWhole.left.some rest
    have hText : ¬ IsBlank t :=
      fun hBlank => hSome (trim_eq_nil_iff.mpr hBlank)
    have hBare : Condition.bare t = (false, trim t) := by
      apply Condition.bare_of_none
      rw [hTrim]
      exact hWhole.afterKeyword?_append rest (by decide)
    have hOpen : (trim t).head? ≠ some '(' := by
      rw [hTrim]
      exact hWhole.head?_append rest
    have hOther :
        ¬ SameWord ((x ++ rest).takeWhile isNameChar)
          "PARAMETER".toList := by
      have hLeading := leadingWord_append rest hWhole.ends
      rw [leadingWord] at hLeading
      rw [hLeading]
      exact hWhole.avoids _ (by decide)
    rw [Condition.ofText_comparison_iff hPart hText hBare hOpen, hTrim,
      hWhole.left.ofText_append hHalts hOther, hField]
    constructor
    · rintro ⟨p, hRead, rfl⟩
      have hLeft := (Predicate.compares_of_readComparison hRead).left_eq
      exact ⟨p, hRead, hLeft, rfl⟩
    · rintro ⟨p, hRead, -, rfl⟩
      exact ⟨p, hRead, rfl⟩

end Text

end SqlSelect
