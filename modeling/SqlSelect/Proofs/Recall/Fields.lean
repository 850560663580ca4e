import SqlSelect.Item.Reading
import SqlSelect.Proofs.Recall.Lists

/-
  Lists that are a plain name. Such a list is read as the
  field of that name, unless the name is CASE, which begins a
  choice. The name DISTINCT leaves no item in the list.

  Main statements:
    * `Item.exists_readExpression_name`
    * `Item.readExpression_case`
    * `ItemList.exists_ofText_name`
    * `ItemList.ofText_case`
-/

namespace SqlSelect

namespace Name

variable {name keyword : Text}

------------------------------------------------------------
-- Keywords That Are Next
------------------------------------------------------------

/- No blank is in front of a plain name. -/
theorem skipBlanks_ofText
    (hPlain : Text.IsPlainName name) :
    (Cursor.ofText name).skipBlanks = Cursor.ofText name := by
  have hTrim := Condition.trimStart_trim name
  rw [Text.trim_eq_of_isTrimmed (isTrimmed_of_isPlainName hPlain)]
    at hTrim
  exact congrArg (fun t => (⟨name, t, 0⟩ : Cursor)) hTrim

/-
  A keyword of one word is next in a plain name if the name
  spells it. Nothing is behind it then.
-/
theorem afterKeyword?_eq
    {word : Text}
    (hPlain : Text.IsPlainName name)
    (hLetters : Text.IsLetters word)
    (hWords : word.words = [word]) :
    (Cursor.ofText name).afterKeyword? word =
      if Text.SameWord name word then some ⟨name, [], 0⟩ else none := by
  have hWord : ∀ w ∈ [word], Text.IsLetters w := by simpa using hLetters
  have hNames (c : Char) (hMem : c ∈ name) :=
    isNameChar_of_mem hPlain hMem
  simp only [Cursor.afterKeyword?, skipBlanks_ofText hPlain, hWords]
  by_cases hSame : Text.SameWord name word
  · have hEnds : EndsAfter [] := by decide
    have hSome :=
      delimitedLength?_of_spelled hWord (Text.spells_singleton hSame)
        hEnds
    rw [List.append_nil] at hSome
    simp only [Cursor.ofText, hSome, Option.map_some, List.drop_length,
      if_pos hSame]
  · have hNone : delimitedLength? [word] name = none :=
      Text.delimitedLength?_eq_none_of_word hWord hNames
        (Text.not_spells_of_word hNames (by simpa using hSame))
    simp only [Cursor.ofText, hNone, Option.map_none, if_neg hSame]

/- No comma stands at the top level of a name in writing. -/
theorem noneAtTop_written
    (name : Text) :
    Text.NoneAtTop ',' (written name) := by
  have hNone (c : Char) (hName : isNameChar c = true) :
      (c == ',') = false := by
    have hComma : isNameChar ',' = false := by decide +kernel
    rw [beq_eq_false_iff_ne]
    rintro rfl
    rw [hComma] at hName
    exact absurd hName (by decide)
  rintro m hMem ⟨hTop, hComma⟩
  have hOther := passes_written hNone name m hMem hTop
  rw [hComma] at hOther
  exact absurd hOther (by decide)

end Name

------------------------------------------------------------
-- Items
------------------------------------------------------------

namespace Item

variable {env : Environment}
variable {name : Text}
variable {field : Field}

/- A single word has no direction behind it. -/
theorem cutDirection_word
    {t : Text}
    (hWord : Text.topWords t = .ok ⟨[([], t)], []⟩) :
    cutDirection t = .ok (t, .ascending) := by
  rw [cutDirection, hWord]
  rfl

/- A single word has no alias behind it. -/
theorem cutAlias_word
    {t : Text}
    (hWord : Text.topWords t = .ok ⟨[([], t)], []⟩) :
    cutAlias t = .ok (t, none) := by
  rw [cutAlias, hWord]
  rfl

/-
  A text with neither direction nor alias behind it is read by
  itself. In an order it goes up.
-/
theorem readItem_of_cuts
    {t : Text}
    (ordered : Bool)
    (hSome : t ≠ [])
    (hTrim : Text.trim t = t)
    (hDirection : cutDirection t = .ok (t, .ascending))
    (hAlias : cutAlias t = .ok (t, none)) :
    readItem env ordered t =
      (readAliased env t none).map fun items =>
        if ordered then
          items.map fun item =>
            { item with direction := some .ascending }
        else items := by
  unfold readItem
  simp only [hTrim, if_neg hSome, hDirection, hAlias, bind,
    Except.bind]
  cases ordered <;> cases readAliased env t none <;> rfl

/- A text that does not end in a star is none. -/
theorem star?_of_last
    {t : Text}
    (hLast : t.getLast? ≠ some '*') :
    star? t = .ok none := by
  have hAlone : t ≠ ['*'] := by
    rintro rfl
    exact hLast rfl
  have hBehind : ".*".toList.isSuffixOf t = false := by
    rw [Bool.eq_false_iff, ne_eq, List.isSuffixOf_iff_suffix]
    rintro ⟨front, rfl⟩
    rw [List.getLast?_append_of_ne_nil _ (by decide)] at hLast
    exact hLast (by decide)
  rw [star?, if_neg hAlone, hBehind]
  rfl

/- A plain name ends in no star. -/
theorem star?_name
    (hPlain : Text.IsPlainName name) :
    star? name = .ok none :=
  star?_of_last fun hLast =>
    absurd (Name.isNameChar_of_mem hPlain (List.mem_of_getLast? hLast))
      (by decide +kernel)

/- A plain name denotes itself. -/
theorem denotes_of_isPlainName
    (hPlain : Text.IsPlainName name) :
    Name.Denotes name name := by
  have hDenotes := Name.denotes_written name
  rwa [Name.written, if_pos hPlain] at hDenotes

/- A field is found by its name, or an item of the select list. -/
theorem exists_readField_name
    (hPlain : Text.IsPlainName name)
    (hField : env.schema.find? name = some field) :
    ∃ item, readField env name = .ok item := by
  have hDenotes := denotes_of_isPlainName hPlain
  rw [readField, env.selectedField?_of_denotes hDenotes,
    env.tableField_of_denotes hDenotes, hField]
  cases env.selected? name with
  | some item => exact ⟨item, rfl⟩
  | none => exact ⟨_, rfl⟩

/- A plain name begins a choice exactly when it is CASE. -/
theorem isSome_afterKeyword?_case_iff
    (hPlain : Text.IsPlainName name) :
    ((Cursor.ofText name).afterKeyword? "CASE".toList).isSome = true ↔
      Text.SameWord name "CASE".toList := by
  rw [Name.afterKeyword?_eq hPlain (by decide) (by decide)]
  split_ifs with hSame
  · exact iff_of_true rfl hSame
  · exact iff_of_false (by decide) hSame

/-
  A plain name other than CASE is read as an item: as TRUE or
  FALSE, or as a field.
-/
theorem exists_readExpression_name
    (hPlain : Text.IsPlainName name)
    (hField : env.schema.find? name = some field)
    (hOther : ¬ Text.SameWord name "CASE".toList) :
    ∃ item, readExpression env name = .ok item := by
  have hCall := Name.call?_written name
  have hLiteral := Literal.ofText?_name name
  rw [Name.written, if_pos hPlain] at hCall hLiteral
  have hCase := (isSome_afterKeyword?_case_iff hPlain).not.mpr hOther
  rw [readExpression, hCall]
  simp only [bind, Except.bind, if_neg hCase, hLiteral]
  cases Literal.readBoolean? name with
  | some value => exact ⟨_, rfl⟩
  | none => exact exists_readField_name hPlain hField

/- The name CASE is refused, since no END is behind it. -/
theorem readExpression_case
    (hPlain : Text.IsPlainName name)
    (hSame : Text.SameWord name "CASE".toList) :
    readExpression env name =
      .error (.malformed (.missingKeyword "END".toList name)) := by
  have hCall := Name.call?_written name
  rw [Name.written, if_pos hPlain] at hCall
  have hCase := (isSome_afterKeyword?_case_iff hPlain).mpr hSame
  have hNames (c : Char) (hMem : c ∈ name) :=
    Name.isNameChar_of_mem hPlain hMem
  have hBalanced := Name.balanced_written name
  rw [Name.written, if_pos hPlain] at hBalanced
  have hFree : Text.IsFree (Text.words "END".toList) name := by
    refine
      Text.isFree_of_word (by decide) hNames
        (Text.not_spells_of_word hNames ?_)
    intro word hMem
    have hWords : Text.words "END".toList = ["END".toList] := by decide
    rw [hWords, List.mem_singleton] at hMem
    rw [hMem]
    exact Text.not_sameWord_of_length hSame (by decide)
  rw [readExpression, hCall]
  simp only [bind, Except.bind, if_pos hCase]
  rw [readCase, requireEnd, Text.cutAtKeyword_eq hBalanced, hFree]
  rfl

/- A single expression without an alias is read by itself. -/
theorem readAliased_name
    (hPlain : Text.IsPlainName name) :
    readAliased env name none =
      match env.selected? name with
      | some item => .ok [item.withAlias none]
      | none =>
          (readExpression env name).map fun item =>
            [item.withAlias none] := by
  rw [readAliased, star?_name hPlain]
  rfl

/- What a plain name is read as is an item of its own. -/
theorem readItem_name
    (ordered : Bool)
    (hPlain : Text.IsPlainName name) :
    readItem env ordered name =
      (readAliased env name none).map fun items =>
        if ordered then
          items.map fun item =>
            { item with direction := some .ascending }
        else items := by
  have hSome := Name.written_ne_nil name
  have hTrim := Name.trim_written name
  have hWord := Name.topWords_written name
  rw [Name.written, if_pos hPlain] at hSome hTrim hWord
  exact
    readItem_of_cuts ordered hSome hTrim (cutDirection_word hWord)
      (cutAlias_word hWord)

end Item

------------------------------------------------------------
-- Lists
------------------------------------------------------------

namespace ItemList

variable {env : Environment}
variable {name : Text}
variable {field : Field}

/-
  A text without DISTINCT in front and without a comma at the
  top level is a list of one item.
-/
theorem ofText_single
    {t : Text}
    (ordered : Bool)
    (hSome : t ≠ [])
    (hTrim : Text.trim t = t)
    (hSplit : Item.splitDistinct t = (false, t))
    (hBalanced : Text.Balanced t)
    (hNone : Text.NoneAtTop ',' t) :
    ofText env ordered t =
      (Item.readItem env ordered t).map fun items =>
        ⟨false, items⟩ := by
  have hText : ¬ Text.IsBlank t := by
    rwa [← hTrim, ne_eq, Text.trim_eq_nil_iff] at hSome
  have hPieces : Text.splitTop ',' t = .ok [t] := by
    rw [Text.splitTop_eq hBalanced,
      Text.topPieces_of_none hBalanced hNone]
  rw [ofText, hTrim, hSplit]
  simp only [if_neg hText, hPieces, bind, Except.bind]
  rw [List.mapM_cons]
  cases Item.readItem env ordered t with
  | error e => rfl
  | ok items => simp [bind, Except.bind, Except.map, pure, Except.pure]

/- A plain name is a list of one item, unless it is DISTINCT. -/
theorem ofText_name
    (ordered : Bool)
    (hPlain : Text.IsPlainName name)
    (hOther : ¬ Text.SameWord name "DISTINCT".toList) :
    ofText env ordered name =
      (Item.readItem env ordered name).map fun items =>
        ⟨false, items⟩ := by
  have hSome := Name.written_ne_nil name
  have hTrim := Name.trim_written name
  have hBalanced := Name.balanced_written name
  have hNone := Name.noneAtTop_written name
  rw [Name.written, if_pos hPlain] at hSome hTrim hBalanced hNone
  have hSplit : Item.splitDistinct name = (false, name) := by
    rw [Item.splitDistinct,
      Name.afterKeyword?_eq hPlain (by decide) (by decide),
      if_neg hOther]
  exact ofText_single ordered hSome hTrim hSplit hBalanced hNone

/- The name DISTINCT is a list of no item. -/
theorem ofText_distinct
    (ordered : Bool)
    (hPlain : Text.IsPlainName name)
    (hSame : Text.SameWord name "DISTINCT".toList) :
    ofText env ordered name = .ok ⟨true, []⟩ := by
  have hTrim :=
    Text.trim_eq_of_isTrimmed (Name.isTrimmed_of_isPlainName hPlain)
  have hSplit : Item.splitDistinct name = (true, []) := by
    rw [Item.splitDistinct,
      Name.afterKeyword?_eq hPlain (by decide) (by decide),
      if_pos hSame]
  rw [ofText, hTrim, hSplit]
  rfl

/-
  The name of a field other than CASE is a list, also of an
  order and with a select list to refer to.
-/
theorem exists_ofText_name
    (ordered : Bool)
    (hPlain : Text.IsPlainName name)
    (hField : env.schema.find? name = some field)
    (hOther : ¬ Text.SameWord name "CASE".toList) :
    ∃ list, ofText env ordered name = .ok list := by
  by_cases hDistinct : Text.SameWord name "DISTINCT".toList
  · exact ⟨_, ofText_distinct ordered hPlain hDistinct⟩
  · rw [ofText_name ordered hPlain hDistinct,
      Item.readItem_name ordered hPlain, Item.readAliased_name hPlain]
    rcases Item.exists_readExpression_name hPlain hField hOther
      with ⟨item, hItem⟩
    rw [hItem]
    cases env.selected? name with
    | some selected => exact ⟨_, rfl⟩
    | none => exact ⟨_, rfl⟩

/- The name CASE is no list where there is no select list. -/
theorem ofText_case
    (ordered : Bool)
    (hPlain : Text.IsPlainName name)
    (hSame : Text.SameWord name "CASE".toList)
    (hNone : env.selected = none) :
    ofText env ordered name =
      .error (.malformed (.missingKeyword "END".toList name)) := by
  have hDistinct : ¬ Text.SameWord name "DISTINCT".toList :=
    Text.not_sameWord_of_length hSame (by decide)
  have hSelected : env.selected? name = none := by
    rw [Environment.selected?, hNone]
    rfl
  rw [ofText_name ordered hPlain hDistinct,
    Item.readItem_name ordered hPlain, Item.readAliased_name hPlain,
    hSelected, Item.readExpression_case hPlain hSame]
  rfl

end ItemList

end SqlSelect
