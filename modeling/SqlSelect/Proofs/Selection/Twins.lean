import SqlSelect.Proofs.Selection.Aliases
import SqlSelect.Proofs.Selection.Meaning

/-
  Select lists and the letter case of names. A name is looked
  up in a select list without regard to letter case, and in
  the table with the exact name first. Whether a select list
  keeps the meaning of what refers to it depends on twins,
  fields whose names differ in letter case only: without them
  every list without aliases does, and with them one does not.

  Main statements:
    * `Schema.isClear_of_isPlainName`
    * `Environment.fieldName_eq_picked?`
    * `Environment.ReadsAs`
    * `Environment.KeepsMeaning`
    * `Environment.keepsMeaning_iff_noTwins`
    * `Environment.not_forall_keepsMeaning`
-/

namespace SqlSelect

namespace Environment

variable {schema : Schema}
variable {scope : Scope}
variable {list : ItemList}
variable {t : Text}
variable {item own : Item}

------------------------------------------------------------
-- Operands
------------------------------------------------------------

/-
  The item of the select list that an operand refers to, if it
  refers to one.
-/
def picked?
    (env : Environment)
    (t : Text) : Except Error (Option Item) :=
  match env.selected? t with
  | some item => .ok (some item)
  | none => do
      match ← env.selectedAggregate? t with
      | some item => .ok (some item)
      | none => env.selectedField? t

/- An operand is the column of its item, or a field of the table. -/
theorem fieldName_eq_picked?
    (env : Environment)
    (operand : Text) :
    env.fieldName operand =
      env.picked? (Text.trim operand) >>= fun found =>
        match found with
        | some item => .ok item.columnName
        | none =>
            (env.tableField (Text.trim operand)).map Reference.name := by
  simp only [fieldName, picked?]
  cases env.selected? (Text.trim operand) with
  | some item => rfl
  | none =>
      cases env.selectedAggregate? (Text.trim operand) with
      | error e => rfl
      | ok aggregate =>
          cases aggregate with
          | some item => rfl
          | none => rfl

theorem finds_of_selectedField?
    (hNone : Item.aggregateCall? schema scope t = .ok none)
    (hFound :
      selectedField? ⟨schema, scope, some list⟩ t = .ok (some item)) :
    Finds schema scope list t item := by
  rcases map_eq_ok_iff.mp hFound with ⟨name?, hName, hBind⟩
  rcases Option.bind_eq_some_iff.mp hBind with ⟨name, rfl, hItem⟩
  exact .name name hNone hName hItem

theorem finds_of_picked?
    (hPicked : picked? ⟨schema, scope, some list⟩ t = .ok (some item)) :
    Finds schema scope list t item := by
  rw [picked?] at hPicked
  split at hPicked
  · rename_i found hFound
    cases hPicked
    exact .text hFound
  · rcases bind_eq_ok_iff.mp hPicked with ⟨aggregate?, hCall, hRest⟩
    rcases bind_eq_ok_iff.mp hCall with ⟨call?, hRead, hFound⟩
    split at hFound
    · cases hFound
      exact finds_of_selectedField? hRead hRest
    · rename_i aggregate
      split at hFound
      · cases hFound
      · rename_i found hSame
        cases hFound
        cases hRest
        exact .aggregate aggregate hRead hSame

------------------------------------------------------------
-- Items
------------------------------------------------------------

/- A call is read by itself, or as what is found for it. -/
theorem eq_or_finds_of_readCall
    {name argument : Text}
    (hCall : Text.call? t = .ok (some (name, argument)))
    (hRead :
      Item.readCall ⟨schema, scope, some list⟩ t name argument = .ok item)
    (hOwn :
      Item.readCall ⟨schema, scope, none⟩ t name argument = .ok own) :
    item = own ∨ Finds schema scope list t item := by
  rw [Item.readCall] at hRead hOwn
  cases hFunction : AggregateFunction.ofWord? name with
  | none =>
      -- A choice is read without a select list in any case.
      simp only [hFunction] at hRead hOwn
      split_ifs at hRead hOwn
      exact Or.inl (Except.ok.inj (hRead.symm.trans hOwn))
  | some function =>
      simp only [hFunction] at hRead hOwn
      rcases map_eq_ok_iff.mp hOwn with ⟨aggregate, hAggregate, hSelf⟩
      have hSelf : aggregate = own := hSelf
      subst hSelf
      rcases map_eq_ok_iff.mp hRead with ⟨_, hOther, hItem⟩
      rw [hAggregate] at hOther
      cases hOther
      change (list.findAggregate? aggregate).getD aggregate = item at hItem
      cases hFound : list.findAggregate? aggregate with
      | none =>
          rw [hFound] at hItem
          exact Or.inl hItem.symm
      | some found =>
          rw [hFound, Option.getD_some] at hItem
          subst hItem
          exact
            Or.inr
              (.aggregate aggregate
                (Item.aggregateCall?_of_call hCall hFunction hAggregate)
                hFound)

/- An expression is read by itself, or as what is found for it. -/
theorem eq_or_finds_of_readExpression
    (hRead :
      Item.readExpression ⟨schema, scope, some list⟩ t = .ok item)
    (hOwn : Item.readExpression ⟨schema, scope, none⟩ t = .ok own) :
    item = own ∨ Finds schema scope list t item := by
  rcases bind_eq_ok_iff.mp hRead with ⟨call?, hCall, hRest⟩
  rcases bind_eq_ok_iff.mp hOwn with ⟨_, hCall', hRest'⟩
  rw [hCall] at hCall'
  cases hCall'
  cases call? with
  | some call => exact eq_or_finds_of_readCall hCall hRest hRest'
  | none =>
      simp only at hRest hRest'
      split_ifs at hRest hRest'
      · exact Or.inl (Except.ok.inj (hRest.symm.trans hRest'))
      cases hLiteral : Literal.ofText? t with
      | some value =>
          simp only [hLiteral] at hRest hRest'
          exact Or.inl (Except.ok.inj (hRest.symm.trans hRest'))
      | none =>
          simp only [hLiteral] at hRest hRest'
          rcases bind_eq_ok_iff.mp hRest with ⟨found?, hFound, hLast⟩
          cases found? with
          | some found =>
              cases hLast
              refine Or.inr (finds_of_selectedField? ?_ hFound)
              simp only [Item.aggregateCall?, hCall]
              rfl
          | none => exact Or.inl (Except.ok.inj (hLast.symm.trans hRest'))

/-
  The items are read from one text, with a select list and
  without it, and mean the same where they are read as fields
  or aggregates without it.
-/
def MeanSame
    (schema : Schema)
    (items owns : List Item) : Prop :=
  List.Forall₂
    (fun item own =>
      own.isPlain = true ∨ own.isAggregate = true →
        item.MeansSame schema own)
    items owns

theorem meanSame_refl
    (schema : Schema)
    (items : List Item) :
    MeanSame schema items items :=
  List.forall₂_same.mpr fun item _ _ => .refl schema item

/- Aliases and directions do not matter for what is meant. -/
theorem meanSame_map
    {f : Item → Item}
    {items owns : List Item}
    (hContent : ∀ a : Item, (f a).content = a.content)
    (hMean : MeanSame schema items owns) :
    MeanSame schema (items.map f) (owns.map f) := by
  rw [MeanSame, List.forall₂_map_left_iff, List.forall₂_map_right_iff]
  refine hMean.imp fun item own hSame hKind => ?_
  refine (hSame ?_).of_content (hContent item) (hContent own)
  have hPlain := congrArg Item.isPlain (hContent own)
  have hAggregate := congrArg Item.isAggregate (hContent own)
  change (f own).isPlain = own.isPlain at hPlain
  change (f own).isAggregate = own.isAggregate at hAggregate
  rwa [hPlain, hAggregate] at hKind

theorem meanSame_of_readAliased
    {aliasName : Option Text}
    {items owns : List Item}
    (hFinds :
      ∀ item own,
        Finds schema scope list t item →
          Item.readExpression ⟨schema, scope, none⟩ t = .ok own →
          own.isPlain = true ∨ own.isAggregate = true →
          item.MeansSame schema own)
    (hRead :
      Item.readAliased ⟨schema, scope, some list⟩ t aliasName = .ok items)
    (hOwn :
      Item.readAliased ⟨schema, scope, none⟩ t aliasName = .ok owns) :
    MeanSame schema items owns := by
  rcases Item.cases_of_readAliased hRead
    with ⟨qualifier, hStar, -, rfl⟩ | ⟨hStar, item, rfl, hItem⟩
  · rcases Item.cases_of_readAliased hOwn
      with ⟨qualifier', hStar', -, rfl⟩ | ⟨hNone, -⟩
    · rw [hStar] at hStar'
      cases hStar'
      exact meanSame_refl schema _
    · rw [hStar] at hNone
      cases hNone
  · rcases Item.cases_of_readAliased hOwn
      with ⟨qualifier', hStar', -⟩ | ⟨-, own, rfl, hNone | ⟨-, hOwn⟩⟩
    · rw [hStar] at hStar'
      cases hStar'
    · cases hNone
    · have hSame :
          own.isPlain = true ∨ own.isAggregate = true →
            item.MeansSame schema own := by
        rcases hItem with hFound | ⟨-, hExpression⟩
        · exact hFinds item own (.text hFound) hOwn
        · rcases eq_or_finds_of_readExpression hExpression hOwn
            with rfl | hFound
          · exact fun _ => .refl schema item
          · exact hFinds item own hFound hOwn
      exact
        meanSame_map (fun _ => Item.content_withAlias)
          (.cons hSame .nil : MeanSame schema [item] [own])

/- Ends are cut off in the same way with and without a select list. -/
theorem meanSame_of_readItem
    {ordered : Bool}
    {items owns : List Item}
    (hFinds :
      ∀ t item own,
        Finds schema scope list t item →
          Item.readExpression ⟨schema, scope, none⟩ t = .ok own →
          own.isPlain = true ∨ own.isAggregate = true →
          item.MeansSame schema own)
    (hRead :
      Item.readItem ⟨schema, scope, some list⟩ ordered t = .ok items)
    (hOwn : Item.readItem ⟨schema, scope, none⟩ ordered t = .ok owns) :
    MeanSame schema items owns := by
  rcases Item.exists_readAliased_of_readItem hRead
    with ⟨expression, aliasName, plain, hCut, hPlain, -, rfl⟩
  rcases Item.exists_readAliased_of_readItem hOwn
    with ⟨expression', aliasName', plain', hCut', hPlain', -, rfl⟩
  rw [hCut] at hCut'
  cases hCut'
  exact
    meanSame_map (Item.content_withDirection _)
      (meanSame_of_readAliased (hFinds expression) hPlain hPlain')

------------------------------------------------------------
-- Select Lists that Keep the Meaning
------------------------------------------------------------

/-
  Which column an operand is read as: that of the item that it
  is taken for, which means what the operand means by itself,
  or a field of the table if it is taken for no item.
-/
inductive ReadsAs
    (env : Environment)
    (operand name : Text)
    (own : Item) : Prop
  | item
      (item : Item)
      (hPicked : env.picked? (Text.trim operand) = .ok (some item))
      (hName : name = item.columnName)
      (hMeans : item.MeansSame env.schema own)
  | field
      (reference : Reference)
      (hPicked : env.picked? (Text.trim operand) = .ok none)
      (hField : env.tableField (Text.trim operand) = .ok reference)
      (hName : name = reference.name)

/-
  The select list keeps the meaning of what refers to it.
  Where a text is read as fields or aggregates without the
  list, it is read with the list as items of the same fields
  and functions: as an item of a list, and as an operand of a
  comparison.
-/
structure KeepsMeaning
    (env : Environment) : Prop where
  listed :
    ∀ ordered t items owns,
      Item.readItem env ordered t = .ok items →
        Item.readItem env.tableOnly ordered t = .ok owns →
        MeanSame env.schema items owns
  compared :
    ∀ operand name own,
      env.fieldName operand = .ok name →
        Item.readExpression env.tableOnly (Text.trim operand) =
          .ok own →
        own.isPlain = true ∨ own.isAggregate = true →
        env.ReadsAs operand name own

/- A list without aliases keeps the meaning of clear names. -/
theorem keepsMeaning_of_noTwins
    {selectText : Text}
    (hClear : schema.IsClear scope)
    (hNoTwins : schema.NoTwins)
    (hSelect :
      ItemList.ofText ⟨schema, scope, none⟩ false selectText = .ok list)
    (hUnaliased : ItemList.IsUnaliased selectText) :
    KeepsMeaning ⟨schema, scope, some list⟩ := by
  have hListed : ∀ d ∈ list.items, d.IsListed schema scope :=
    fun d hMem => ItemList.isListed_of_mem hSelect hUnaliased hMem
  constructor
  · intro ordered t items owns hRead hOwn
    exact
      meanSame_of_readItem
        (fun t item own hFinds hText hKind =>
          hFinds.meansSame hNoTwins hClear hListed hText hKind)
        hRead hOwn
  · intro operand name own hRead hOwn hKind
    rw [fieldName_eq_picked?] at hRead
    rcases bind_eq_ok_iff.mp hRead with ⟨found?, hPicked, hColumn⟩
    cases found? with
    | some item =>
        cases hColumn
        exact
          .item item hPicked rfl
            ((finds_of_picked? hPicked).meansSame hNoTwins hClear
              hListed hOwn hKind)
    | none =>
        rcases map_eq_ok_iff.mp hColumn with ⟨reference, hField, rfl⟩
        exact .field reference hPicked hField rfl

/- A field in quotes is an item of its name. -/
theorem readItem_quoted_field
    {field : Field}
    (scope : Scope)
    (hField : field ∈ schema.fields) :
    ∃ found,
      schema.find? field.name = some found ∧
        found.name = field.name ∧
        Item.readItem ⟨schema, scope, none⟩ false
            (Name.quoted field.name) =
          .ok [Item.ofReference ⟨none, field.name, found.type⟩] := by
  rcases Schema.exists_find?_of_mem hField with ⟨found, hFind, hName⟩
  refine ⟨found, hFind, hName, ?_⟩
  have hItem :
      Item.readAliased ⟨schema, scope, none⟩ (Name.quoted field.name)
          none =
        .ok [Item.ofReference ⟨none, field.name, found.type⟩] := by
    rw [Item.readAliased_quoted]
    simp [selected?, hFind]
  rw [(Text.isWhole_quoted field.name).readItem_eq, hItem]
  rfl

/- A text that is left whole is the one piece of its list. -/
theorem pieces_of_isWhole
    {x : Text}
    (hWhole : Text.IsWhole x) :
    ItemList.pieces x = .ok [x] := by
  have hSplit : Item.splitDistinct x = (false, x) := hWhole.splitDistinct_eq
  have hText : ¬ Text.IsBlank x := by
    rw [← Text.trim_eq_nil_iff, hWhole.trimmed]
    exact hWhole.left.some
  rw [ItemList.pieces, hWhole.trimmed, hSplit]
  simp only [if_neg hText]
  rw [Text.splitTop_eq hWhole.left.balanced,
    Text.topPieces_of_none hWhole.left.balanced hWhole.noComma]

theorem isUnaliased_of_isWhole
    {x : Text}
    (hWhole : Text.IsWhole x) :
    ItemList.IsUnaliased x := by
  intro texts hTexts piece hPiece expression aliasName hCut
  rw [pieces_of_isWhole hWhole] at hTexts
  cases hTexts
  rw [List.mem_singleton] at hPiece
  rw [hPiece, Item.cutEnds] at hCut
  simp only [Bool.false_eq_true, if_false, hWhole.trimmed,
    Item.cutAlias_word hWhole.topWords_eq] at hCut
  cases hCut
  rfl

/- A name in quotes is longer than the name. -/
theorem not_sameWord_quoted
    {a b : Text}
    (hSame : Text.SameWord a b) :
    ¬ Text.SameWord a (Name.quoted b) := by
  have hShort := Name.length_unquote_lt (Name.isEnclosed_quoted b)
  have hInner : Text.undouble '"' (Text.inner (Name.quoted b)) = b := by
    rw [Name.quoted, Text.inner_surround, Text.undouble_double]
  rw [hInner, ← Text.length_eq_of_sameWord hSame] at hShort
  intro hOther
  exact absurd (Text.length_eq_of_sameWord hOther) hShort.ne

/- The one of two twins that is selected is found for the other. -/
theorem readItem_quoted_twin
    {a b : Text}
    {type : FieldType}
    (hSame : Text.SameWord a b) :
    Item.readItem
        ⟨schema, scope,
          some ⟨false, [Item.ofReference ⟨none, a, type⟩]⟩⟩
        false (Name.quoted b) =
      .ok [Item.ofReference ⟨none, a, type⟩] := by
  have hOther := not_sameWord_quoted hSame
  rw [(Text.isWhole_quoted b).readItem_eq, Item.readAliased_quoted]
  simp [selected?, ItemList.find?, Item.ofReference, Item.isAggregate,
    hSame, hOther, Except.map]

/-
  Every select list without aliases keeps the meaning of clear
  names exactly if no two of them differ in letter case only.
-/
theorem keepsMeaning_iff_noTwins
    (hClear : schema.IsClear scope) :
    (∀ selectText list,
        ItemList.ofText ⟨schema, scope, none⟩ false selectText =
            .ok list →
          ItemList.IsUnaliased selectText →
          KeepsMeaning ⟨schema, scope, some list⟩) ↔
      schema.NoTwins := by
  constructor
  · intro hKeeps a hFirst b hSecond hSame
    -- One of the twins is selected, and the other refers to it.
    rcases readItem_quoted_field scope hFirst
      with ⟨foundA, hFindA, hNameA, hReadA⟩
    rcases readItem_quoted_field scope hSecond
      with ⟨foundB, hFindB, hNameB, hReadB⟩
    have hWhole := Text.isWhole_quoted a.name
    have hKept :=
      hKeeps (Name.quoted a.name) _ (hWhole.isRead hReadA).2
        (isUnaliased_of_isWhole hWhole)
    have hMean :=
      hKept.listed false (Name.quoted b.name) _ _
        (readItem_quoted_twin hSame) hReadB
    rcases List.forall₂_cons.mp hMean with ⟨hMeans, -⟩
    have hField := (hMeans (Or.inl rfl)).field
    change schema.find? a.name = schema.find? b.name at hField
    rw [hFindA, hFindB, Option.some.injEq] at hField
    rw [← hNameA, hField, hNameB]
  · intro hNoTwins selectText list hSelect hUnaliased
    exact keepsMeaning_of_noTwins hClear hNoTwins hSelect hUnaliased

/- A table of two numbers without twins. -/
def plainSchema : Schema :=
  ⟨[⟨"A".toList, .ofCategory .integer⟩,
    ⟨"b".toList, .ofCategory .number⟩]⟩

/- A sum and a field, which others refer to in other letters. -/
theorem keepsMeaning_iff_noTwins_sum :
    KeepsMeaning
      ⟨plainSchema, ⟨some "t".toList, none⟩,
        some
          ⟨false,
            [{ source := "A".toList
               qualifier := some "t".toList
               aliasName := some "SUM(t.A)".toList
               function := some .sum
               type := some (.ofCategory .integer) },
              { source := "b".toList
                type := some (.ofCategory .number) }]⟩⟩ := by
  have hClear :
      plainSchema.IsClear ⟨some "t".toList, none⟩ :=
    Schema.isClear_of_isPlainName _ (by decide +kernel)
  exact
    (keepsMeaning_iff_noTwins hClear).mpr (by decide)
      "SUM(t.A), b".toList _ (by decide +kernel) (by decide +kernel)

/-
  Names that are not clear do not keep the meaning either: the
  quoted name of a field is taken for the sum that is called
  like it.
-/
example :
    let sum : Item :=
      { source := "A".toList
        aliasName := some "SUM(A)".toList
        function := some .sum
        type := some (.ofCategory .integer) }
    Item.readItem
        ⟨⟨[⟨"A".toList, .ofCategory .integer⟩,
            ⟨"SUM(A)".toList, .ofCategory .integer⟩]⟩,
          ⟨none, none⟩, some ⟨false, [sum]⟩⟩
        false "\"SUM(A)\"".toList =
      .ok [sum] := by
  decide +kernel

/- A table with two fields whose names differ in letter case. -/
def twinSchema : Schema :=
  ⟨[⟨"A".toList, .ofCategory .string⟩,
    ⟨"a".toList, .ofCategory .integer⟩]⟩

/- The second of two twins is taken for the first. -/
theorem not_forall_keepsMeaning :
    ¬ ∀ schema scope selectText list,
      ItemList.ofText ⟨schema, scope, none⟩ false selectText =
          .ok list →
        ItemList.IsUnaliased selectText →
        KeepsMeaning ⟨schema, scope, some list⟩ := by
  intro hAll
  let first : Item :=
    { source := "A".toList, type := some (.ofCategory .string) }
  let second : Item :=
    { source := "a".toList, type := some (.ofCategory .integer) }
  have hKept :=
    hAll twinSchema ⟨none, none⟩ "A, a".toList ⟨false, [first, second]⟩
      (by decide +kernel) (by decide +kernel)
  have hMean :=
    hKept.listed false "a".toList [first] [second] (by decide +kernel)
      (by decide +kernel)
  rcases List.forall₂_cons.mp hMean with ⟨hMeans, -⟩
  exact absurd (hMeans (Or.inl rfl)).field (by decide)

end Environment

end SqlSelect
