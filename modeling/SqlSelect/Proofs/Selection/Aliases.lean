import SqlSelect.Proofs.Selection.Items

/-
  Aliases in double quotes. Nothing inside of the quotes is
  looked at, so that an alias in quotes stands for the first
  item that has it, whatever characters it consists of and
  whatever the fields of the table are called. It does so
  unless the quoted text goes by itself for something in the
  select list: names are compared without regard to letter
  case there, and so are texts in quotes.

  Main statements:
    * `Text.isWhole_quoted`
    * `ItemList.find?_alias`
    * `Item.readAliased_quoted`
    * `Environment.standsFor_quoted_alias`
    * `Environment.not_forall_standsFor_quoted_alias`
-/

namespace SqlSelect

------------------------------------------------------------
-- Names in Quotes
------------------------------------------------------------

namespace Text

/- A name in double quotes is left whole. -/
theorem isWhole_quoted
    (name : Text) :
    IsWhole (Name.quoted name) := by
  have hBalanced : Balanced (Name.quoted name) :=
    balanced_quoted (by decide) name
  have hHidden : Nesting.Hidden (marking (Name.quoted name)) :=
    hidden_quoted (by decide) name
  have hQuote : isNameChar '"' = false := by decide +kernel
  have hLeading : leadingWord (Name.quoted name) = [] := by
    simp [leadingWord, Name.quoted, hQuote]
  refine
    ⟨Predicate.isLeft_of_hidden (by simp [Name.quoted]) hBalanced
      hHidden, Name.trim_quoted name, noneAtTop_of_hidden ',' hHidden,
      by simp [Name.quoted], by simp [Name.quoted, hQuote], ?_⟩
  rw [hLeading]
  decide

end Text

namespace Item

variable {env : Environment}

/- A name in double quotes ends in no star. -/
theorem star?_quoted
    (name : Text) :
    star? (Name.quoted name) = .ok none := by
  apply star?_of_last
  rw [Name.quoted, Text.getLast?_surround]
  decide

/- A name in double quotes is neither a call nor a constant. -/
theorem readExpression_quoted
    (name : Text) :
    readExpression env (Name.quoted name) =
      readField env (Name.quoted name) := by
  have hCase :
      (Cursor.ofText (Name.quoted name)).afterKeyword? "CASE".toList =
        none := by
    have hWhole := Text.isWhole_quoted name
    have hStart := hWhole.left.trimStart_append []
    rw [List.append_nil] at hStart
    apply Condition.afterKeyword?_eq_none_of_head (by decide)
    rw [hStart]
    rfl
  rw [readExpression, Name.call?_quoted]
  simp only [bind, Except.bind, hCase, Literal.ofText?_quoted]
  rfl

/-
  A name in double quotes is an item of the select list that
  goes by the quoted text or by the name, or a field.
-/
theorem readAliased_quoted
    (name : Text) :
    readAliased env (Name.quoted name) none =
      match
        (env.selected? (Name.quoted name)).or (env.selected? name)
      with
      | some item => .ok [item]
      | none =>
          match env.schema.find? name with
          | some field => .ok [ofReference ⟨none, name, field.type⟩]
          | none => .error (.unknownField (Name.quoted name)) := by
  have hDenotes := Name.denotes_quoted name
  rw [readAliased, star?_quoted]
  simp only [bind, Except.bind]
  cases hText : env.selected? (Name.quoted name) with
  | some item => rfl
  | none =>
      simp only [Option.none_or]
      rw [readExpression_quoted, readField,
        env.selectedField?_of_denotes hDenotes]
      cases hName : env.selected? name with
      | some item => rfl
      | none =>
          simp only [bind, Except.bind]
          rw [env.tableField_of_denotes hDenotes]
          cases env.schema.find? name with
          | some field => rfl
          | none => rfl

end Item

------------------------------------------------------------
-- Aliases
------------------------------------------------------------

variable {list : ItemList}
variable {before after : List Item}
variable {d : Item}
variable {a : Text}

/- The first item with an alias is the one found by it. -/
theorem ItemList.find?_alias
    (hItems : list.items = before ++ d :: after)
    (hAlias : d.aliasName = some a)
    (hFirst :
      ∀ item ∈ before,
        ∀ other,
          item.aliasName = some other → ¬ Text.SameWord other a) :
    list.find? a = some d := by
  have hFound :
      (list.items.find? fun item =>
        item.aliasName.any fun other => Text.SameWord other a) =
        some d := by
    rw [hItems, List.find?_append, List.find?_eq_none.mpr,
      Option.none_or, List.find?_cons_of_pos]
    · simp [hAlias, Text.sameWord_refl]
    · intro item hMem
      cases hOther : item.aliasName with
      | none => simp
      | some other => simpa using hFirst item hMem other hOther
  rw [find?, hFound, Option.some_or]

namespace Environment

/-
  An alias in double quotes stands for the first item with
  the alias, unless an item goes by the text in quotes.
-/
theorem standsFor_quoted_alias
    (schema : Schema)
    (scope : Scope)
    (hItems : list.items = before ++ d :: after)
    (hAlias : d.aliasName = some a)
    (hFirst :
      ∀ item ∈ before,
        ∀ other,
          item.aliasName = some other → ¬ Text.SameWord other a)
    (hOther : list.find? (Name.quoted a) = none) :
    d.columnName = a ∧
      StandsFor ⟨schema, scope, some list⟩ (Name.quoted a) d := by
  have hColumn : d.columnName = a := by
    simp [Item.columnName, hAlias]
  have hFound := ItemList.find?_alias hItems hAlias hFirst
  refine ⟨hColumn, (Text.isWhole_quoted a).standsFor ?_ ?_⟩
  · rw [Item.readAliased_quoted]
    simp [selected?, hOther, hFound]
  · rw [fieldName_of_denotes _ (Name.denotes_quoted a)]
    simp [selected?, hOther, hFound]

/- Two fields, the second of which has an unusual name. -/
def oddSchema : Schema :=
  ⟨[⟨"A".toList, .ofCategory .string⟩,
    ⟨"t.x (1), \"y\" DESC".toList, .ofCategory .integer⟩]⟩

/- The item of the first of two fields, under the name of the other. -/
def oddItem : Item :=
  { source := "A".toList
    aliasName := some "t.x (1), \"y\" DESC".toList
    type := some (.ofCategory .string) }

/- An alias that is full of signs, and the name of a field. -/
theorem standsFor_quoted_alias_odd :
    ItemList.ofText ⟨oddSchema, ⟨some "t".toList, none⟩, none⟩ false
        "A AS \"t.x (1), \"\"y\"\" DESC\"".toList =
      .ok ⟨false, [oddItem]⟩ ∧
    StandsFor
      ⟨oddSchema, ⟨some "t".toList, none⟩, some ⟨false, [oddItem]⟩⟩
      "\"t.x (1), \"\"y\"\" DESC\"".toList oddItem := by
  refine ⟨by decide +kernel, ?_⟩
  have hBoth :=
    standsFor_quoted_alias oddSchema ⟨some "t".toList, none⟩
      (show (ItemList.mk false [oddItem]).items = [] ++ oddItem :: []
        from rfl)
      rfl (by simp) (by decide +kernel)
  exact hBoth.2

/-
  It is not enough that no item goes by exactly the text in
  quotes.
-/
theorem not_forall_standsFor_quoted_alias :
    ¬ ∀ schema scope t list before d after a,
      ItemList.ofText ⟨schema, scope, none⟩ false t = .ok list →
        list.items = before ++ d :: after →
        d.aliasName = some a →
        (∀ item ∈ before,
          ∀ other,
            item.aliasName = some other →
              ¬ Text.SameWord other a) →
        (∀ item ∈ list.items,
          item.aliasName ≠ some (Name.quoted a) ∧
            item.source ≠ Name.quoted a) →
        StandsFor ⟨schema, scope, some list⟩ (Name.quoted a) d := by
  intro hAll
  let schema : Schema :=
    ⟨[⟨"A".toList, .ofCategory .string⟩,
      ⟨"B".toList, .ofCategory .string⟩]⟩
  let first : Item :=
    { source := "A".toList
      aliasName := some "\"X\"".toList
      type := some (.ofCategory .string) }
  let second : Item :=
    { source := "B".toList
      aliasName := some "x".toList
      type := some (.ofCategory .string) }
  let list : ItemList := ⟨false, [first, second]⟩
  have hList :
      ItemList.ofText ⟨schema, ⟨none, none⟩, none⟩ false
          "A AS \"\"\"X\"\"\", B AS x".toList = .ok list := by
    decide +kernel
  have hStands :=
    hAll schema ⟨none, none⟩ _ list [first] second [] "x".toList hList
      rfl rfl (by decide) (by decide)
  have hFirst :
      Item.readItem ⟨schema, ⟨none, none⟩, some list⟩ false
          "\"x\"".toList = .ok [first] := by
    decide +kernel
  have hSecond := (hStands.grouped "\"x\"".toList (by decide)).1
  rw [hFirst] at hSecond
  exact absurd hSecond (by decide)

end Environment

end SqlSelect
