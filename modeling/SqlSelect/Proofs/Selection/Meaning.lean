import SqlSelect.Proofs.Selection.Expressions

/-
  What is found in a select list without aliases. The items of
  such a list go by the names of fields and by their own texts,
  in any letter case. If the names of the fields are clear, and
  no two of them differ in letter case only, what is found for
  a reference or a call of an aggregate means what the text
  means by itself.

  Main statements:
    * `Schema.IsClear`
    * `Schema.isClear_of_isPlainName`
    * `ItemList.isListed_of_mem`
    * `Environment.Finds`
    * `Environment.spelled_of_find?`
    * `Environment.Finds.meansSame`
-/

namespace SqlSelect

------------------------------------------------------------
-- Names that Are Clear
------------------------------------------------------------

namespace Schema

variable {schema : Schema}
variable {scope : Scope}

/-
  The names of the fields are clear. What is spelled like one
  of them is read as a field of this name, if it is read at
  all, and a reference with a qualifier of the table is to the
  name behind the qualifier.
-/
structure IsClear
    (schema : Schema)
    (scope : Scope) : Prop where
  named :
    ∀ field ∈ schema.fields,
      ∀ t item,
        Text.SameWord t field.name →
          Item.readExpression ⟨schema, scope, none⟩ t = .ok item →
          item.isPlain = true ∧ Text.SameWord item.source field.name
  behind :
    ∀ t name reference,
      scope.unqualified? t = .ok (some name) →
        Reference.ofText? schema scope t = .ok (some reference) →
        reference.name = name

/- A text with a qualifier stands for no plain name as a whole. -/
theorem not_isPlainName_unquote
    {t qualifier name : Text}
    (hParts : Name.qualified t = .ok (some qualifier, name)) :
    ¬ Text.IsPlainName (Name.unquote t) := by
  rcases Name.exists_cuts_qualified hParts
    with ⟨point, _, _, -, hPoint, -, -, -⟩
  rcases hPoint.exists_split with ⟨before, after, hText, -, -⟩
  have hMem : '.' ∈ Text.trim t := by
    rw [hText]
    simp
  have hIn := Name.mem_unquote (by decide) (by decide) hMem
  intro hPlain
  exact
    absurd (Name.isNameChar_of_mem hPlain hIn) (by decide +kernel)

/- Without a qualifier the name is that of the whole text. -/
theorem eq_unquote_of_unqualified
    {t name : Text}
    (hParts : Name.qualified t = .ok (none, name)) :
    name = Name.unquote t := by
  rcases Name.qualified_eq_ok_iff.mp hParts with ⟨-, hEq⟩
  cases hRest : (Name.pointStop t).rest with
  | nil =>
      simp only [hRest, Prod.mk.injEq, true_and] at hEq
      rw [hEq, Name.unquote, Name.unquote, Text.trim_trim]
  | cons c behind => simp [hRest] at hEq

/- A plain name refers to nothing but the field of this name. -/
theorem eq_of_ofText?_plain
    {t : Text}
    {reference : Reference}
    (hPlain : Text.IsPlainName t)
    (hRead : Reference.ofText? schema scope t = .ok (some reference)) :
    reference.name = t := by
  rcases Reference.exists_of_ofText? hRead
    with ⟨qualifier, name, hParts, hName⟩
  rw [(Item.denotes_of_isPlainName hPlain).single] at hParts
  cases hParts
  rw [Name.unquote_of_isBare (Name.isBare_of_isPlainName hPlain)] at hName
  rw [hName, ite_self]

/- A plain name that is no literal is read as a field of its name. -/
theorem source_of_readExpression_plain
    {t : Text}
    {item : Item}
    (hPlain : Text.IsPlainName t)
    (hAvoids : Name.Avoids ["TRUE".toList, "FALSE".toList] t)
    (hRead : Item.readExpression ⟨schema, scope, none⟩ t = .ok item) :
    item.isPlain = true ∧ item.source = t := by
  have hNoCall := (Item.denotes_of_isPlainName hPlain).noCall
  have hNoLiteral := Literal.ofText?_name t
  have hNoBoolean : Literal.readBoolean? t = none :=
    Literal.readBoolean?_eq_none_iff.mpr hAvoids
  rw [Name.written, if_pos hPlain, hNoBoolean] at hNoLiteral
  cases Item.expresses_of_readExpression hRead with
  | aggregate hCall =>
      rcases Item.exists_call_of_aggregateCall? hCall
        with ⟨_, _, _, hOther, -, -⟩
      rw [hNoCall] at hOther
      cases hOther
  | conditional _ _ choice hCall hOther hItem =>
      rw [hNoCall] at hCall
      cases hCall
  | case choice hCall hCase hItem =>
      rw [Item.isSome_afterKeyword?_case_iff hPlain] at hCase
      rw [Item.readExpression_case hPlain hCase] at hRead
      cases hRead
  | constant value hCall hCase hValue hItem =>
      rw [hNoLiteral] at hValue
      cases hValue
  | field reference hCall hCase hValue hFound hItem =>
      subst hItem
      exact ⟨rfl, eq_of_ofText?_plain hPlain hFound⟩

/- No table of plain names has a field with a qualifier in its name. -/
theorem eq_of_unqualified?
    {t name : Text}
    {reference : Reference}
    (hPlain : ∀ field ∈ schema.fields, Text.IsPlainName field.name)
    (hName : scope.unqualified? t = .ok (some name))
    (hRead : Reference.ofText? schema scope t = .ok (some reference)) :
    reference.name = name := by
  rcases Reference.exists_of_ofText? hRead
    with ⟨qualifier, behind, hParts, hWhich⟩
  simp only [Scope.unqualified?, hParts, Except.map, Except.ok.injEq,
    Option.ite_none_right_eq_some, Option.some.injEq] at hName
  rcases hName with ⟨hAccepted, rfl⟩
  split_ifs at hWhich with hDirect
  · exact hWhich
  · cases qualifier with
    | some qualifier =>
        -- The whole text would be a field, with a point in its name.
        rcases (Reference.resolves_of_ofText? hRead).found
          with ⟨field, hFind, -⟩
        rcases mem_of_find? hFind with ⟨hField, hSame⟩
        have hWhole :=
          Text.isPlainName_of_sameWord hSame.symm (hPlain field hField)
        rw [hWhich] at hWhole
        exact absurd hWhole (not_isPlainName_unquote hParts)
    | none => rw [hWhich, eq_unquote_of_unqualified hParts]

/-
  Plain names other than TRUE and FALSE are clear, whatever
  the table goes by.
-/
theorem isClear_of_isPlainName
    (scope : Scope)
    (hPlain :
      ∀ field ∈ schema.fields,
        Text.IsPlainName field.name ∧
          Name.Avoids ["TRUE".toList, "FALSE".toList] field.name) :
    schema.IsClear scope := by
  constructor
  · intro field hField t item hSame hRead
    rcases hPlain field hField with ⟨hName, hAvoids⟩
    have hText := Text.isPlainName_of_sameWord hSame hName
    have hOther : Name.Avoids ["TRUE".toList, "FALSE".toList] t :=
      fun word hWord hSpelled =>
        hAvoids word hWord (hSame.symm.trans hSpelled)
    rcases source_of_readExpression_plain hText hOther hRead
      with ⟨hKind, hSource⟩
    exact ⟨hKind, by rwa [hSource]⟩
  · intro t name reference hName hRead
    exact
      eq_of_unqualified? (fun field hField => (hPlain field hField).1)
        hName hRead

end Schema

------------------------------------------------------------
-- Items of a List without Aliases
------------------------------------------------------------

namespace Item

variable {schema : Schema}
variable {scope : Scope}
variable {t expression : Text}
variable {item : Item}

/- An item of a select list that has no alias of its own. -/
inductive IsListed
    (schema : Schema)
    (scope : Scope)
    (item : Item) : Prop where
  | star
      (qualifier : Option Text)
      (field : Field)
      (hField : field ∈ schema.fields)
      (hItem : item = ofReference ⟨qualifier, field.name, field.type⟩)
  | expression
      (t : Text)
      (hTrim : Text.trim t = t)
      (hRead : readExpression ⟨schema, scope, none⟩ t = .ok item)

/-
  A listed item is a field of the table, or it goes by the
  text that it was read from.
-/
theorem IsListed.plain_or_named
    (hListed : item.IsListed schema scope) :
    (∃ reference,
        item = ofReference reference ∧ schema.Has reference.name) ∨
      ∃ t,
        Text.trim t = t ∧
          readExpression ⟨schema, scope, none⟩ t = .ok item ∧
          item.isPlain = false ∧
          (item.aliasName = some t ∧ item.isAggregate = true ∨
            item.aliasName = none ∧ item.source = t) := by
  cases hListed with
  | star qualifier field hField hItem =>
      rcases Schema.exists_find?_of_mem hField with ⟨found, hFind, -⟩
      refine Or.inl ⟨_, hItem, ?_⟩
      rw [Schema.Has, hFind]
      rfl
  | expression t hTrim hRead =>
      cases expresses_of_readExpression hRead with
      | aggregate hCall =>
          rcases aliasName_of_aggregateCall? hCall
            with ⟨hAlias, hAggregate⟩
          refine
            Or.inr ⟨t, hTrim, hRead, ?_, Or.inl ⟨hAlias, hAggregate⟩⟩
          simp [isPlain, hAggregate]
      | conditional name argument choice hCall hOther hItem =>
          subst hItem
          exact Or.inr ⟨t, hTrim, hRead, rfl, Or.inr ⟨rfl, rfl⟩⟩
      | case choice hCall hCase hItem =>
          subst hItem
          exact Or.inr ⟨t, hTrim, hRead, rfl, Or.inr ⟨rfl, rfl⟩⟩
      | constant value hCall hCase hLiteral hItem =>
          subst hItem
          exact Or.inr ⟨t, hTrim, hRead, rfl, Or.inr ⟨rfl, rfl⟩⟩
      | field reference hCall hCase hLiteral hFound hItem =>
          exact
            Or.inl
              ⟨reference, hItem,
                (Reference.resolves_of_ofText? hFound).has⟩

/- Without an alias nothing is cut off at the end. -/
theorem eq_of_cutAlias_none
    (hCut : cutAlias t = .ok (expression, none)) :
    expression = t := by
  rcases map_eq_ok_iff.mp hCut with ⟨words, -, hParts⟩
  have hLast
      {reversed : List Text}
      (hEq : cutLastAlias t words reversed = (expression, none)) :
      expression = t := by
    unfold cutLastAlias at hEq
    split at hEq
    · split_ifs at hEq
      · cases hEq
      · cases hEq
        rfl
    · cases hEq
      rfl
  split at hParts
  · split_ifs at hParts
    · cases hParts
    · exact hLast hParts
  · exact hLast hParts

/- The piece of a list ends with no alias. -/
def IsUnaliased
    (piece : Text) : Prop :=
  ∀ expression aliasName,
    cutEnds false piece = .ok (expression, aliasName) →
      aliasName = none

instance
    (piece : Text) :
    Decidable (IsUnaliased piece) :=
  match hCut : cutEnds false piece with
  | .ok (_, none) =>
      .isTrue fun _ _ hOther => by
        rw [hCut] at hOther
        cases hOther
        rfl
  | .ok (_, some _) =>
      .isFalse fun hNone => by
        cases hNone _ _ hCut
  | .error _ =>
      .isTrue fun _ _ hOther => by
        rw [hCut] at hOther
        cases hOther

end Item

namespace ItemList

variable {schema : Schema}
variable {scope : Scope}
variable {t : Text}
variable {list : ItemList}
variable {item : Item}

/- No piece of the list ends with an alias. -/
def IsUnaliased
    (t : Text) : Prop :=
  ∀ texts,
    pieces t = .ok texts →
      ∀ piece ∈ texts, Item.IsUnaliased piece

instance
    (t : Text) :
    Decidable (IsUnaliased t) :=
  match hPieces : pieces t with
  | .ok texts =>
      decidable_of_iff (∀ piece ∈ texts, Item.IsUnaliased piece)
        ⟨fun hAll texts' hOther => by
            rw [hPieces] at hOther
            cases hOther
            exact hAll,
          fun hAll => hAll texts hPieces⟩
  | .error e =>
      .isTrue fun texts hOther => by
        rw [hPieces] at hOther
        cases hOther

/- The items of such a list are listed without an alias. -/
theorem isListed_of_mem
    (hRead : ofText ⟨schema, scope, none⟩ false t = .ok list)
    (hUnaliased : IsUnaliased t)
    (hMem : item ∈ list.items) :
    item.IsListed schema scope := by
  rcases rows_of_ofText hRead with ⟨texts, rows, hTexts, hItems, hRows⟩
  rw [hItems] at hMem
  rcases List.mem_flatten.mp hMem with ⟨row, hRow, hIn⟩
  rcases Condition.exists_of_mem_forall₂ hRows hRow
    with ⟨piece, hPiece, hItem⟩
  rw [Item.readItem] at hItem
  split_ifs at hItem with hEmpty hOrdered
  · cases hOrdered
  rcases bind_eq_ok_iff.mp hItem
    with ⟨⟨expression, aliasName⟩, hCut, hAliased⟩
  have hNone := hUnaliased texts hTexts piece hPiece _ _ hCut
  subst hNone
  have hText := Item.eq_of_cutAlias_none hCut
  subst hText
  rcases bind_eq_ok_iff.mp hAliased with ⟨star, hStar, hRest⟩
  split at hRest
  · rename_i qualifier
    split_ifs at hRest
    cases hRest
    rcases List.mem_map.mp hIn with ⟨field, hField, hEq⟩
    exact .star qualifier field hField hEq.symm
  · rcases map_eq_ok_iff.mp hRest with ⟨read, hExpression, rfl⟩
    rw [List.mem_singleton] at hIn
    subst hIn
    exact .expression _ (Text.trim_trim piece) hExpression

end ItemList

------------------------------------------------------------
-- What Is Found
------------------------------------------------------------

namespace Environment

variable {schema : Schema}
variable {scope : Scope}
variable {list : ItemList}
variable {t : Text}
variable {item own : Item}

/-
  The item of the select list is found for the text: by the
  text itself, as the aggregate that the text calls, or by the
  name in the text.
-/
inductive Finds
    (schema : Schema)
    (scope : Scope)
    (list : ItemList)
    (t : Text)
    (item : Item) : Prop where
  | text
      (hFound : list.find? t = some item)
  | aggregate
      (aggregate : Item)
      (hRead : Item.aggregateCall? schema scope t = .ok (some aggregate))
      (hFound : list.findAggregate? aggregate = some item)
  | name
      (name : Text)
      (hNone : Item.aggregateCall? schema scope t = .ok none)
      (hName : scope.unqualified? t = .ok (some name))
      (hFound : list.find? name = some item)

/- Fields of one name mean the same. -/
theorem meansSame_of_plain
    {reference reference' : Reference}
    (hFind :
      schema.find? reference.name = schema.find? reference'.name) :
    (Item.ofReference reference).MeansSame schema
      (Item.ofReference reference') :=
  ⟨rfl, rfl, rfl, rfl, hFind⟩

/- Aggregates that are found as the same mean the same. -/
theorem meansSame_of_sameAggregate
    (hNoTwins : schema.NoTwins)
    (hSame : item.SameAggregate own)
    (hAggregate : own.isAggregate = true) :
    item.MeansSame schema own := by
  rcases hSame with
    ⟨⟨hAggregate', hFunction⟩, ⟨hDistinct, hRows⟩, hSource⟩
  refine
    ⟨?_, hFunction, hDistinct, hRows, hNoTwins.find?_eq hSource⟩
  simp [Item.isPlain, hAggregate, hAggregate']

/- The first item of a name has it as its alias or its source. -/
theorem cases_of_find?
    {name : Text}
    (hFound : list.find? name = some item) :
    item ∈ list.items ∧
      ((∃ aliasName,
          item.aliasName = some aliasName ∧
            Text.SameWord aliasName name) ∨
        item.isAggregate = false ∧ Text.SameWord item.source name) := by
  refine ⟨mem_of_itemListFind? hFound, ?_⟩
  rcases Option.or_eq_some_iff.mp hFound with hAlias | ⟨-, hSource⟩
  · have hAny := List.find?_some hAlias
    cases hName : item.aliasName with
    | none => simp [hName] at hAny
    | some aliasName =>
        exact Or.inl ⟨aliasName, rfl, by simpa [hName] using hAny⟩
  · have hBoth := List.find?_some hSource
    simp only [Bool.and_eq_true, Bool.not_eq_true', decide_eq_true_eq]
      at hBoth
    exact Or.inr hBoth

/-
  What is found for a name is a field of the table with the
  name, or it was read from a text that spells the name.
-/
theorem spelled_of_find?
    {name : Text}
    (hListed : ∀ d ∈ list.items, d.IsListed schema scope)
    (hFound : list.find? name = some item) :
    (∃ reference,
        item = Item.ofReference reference ∧
          schema.Has reference.name ∧
          Text.SameWord reference.name name) ∨
      ∃ u,
        Text.trim u = u ∧
          Item.readExpression ⟨schema, scope, none⟩ u = .ok item ∧
          item.isPlain = false ∧ Text.SameWord u name := by
  rcases cases_of_find? hFound with ⟨hMem, hNamed⟩
  rcases (hListed item hMem).plain_or_named
    with ⟨reference, rfl, hHas⟩ | ⟨u, hTrim, hRead, hKind, hText⟩
  · rcases hNamed with ⟨aliasName, hAlias, -⟩ | ⟨-, hSource⟩
    · cases hAlias
    · exact Or.inl ⟨reference, rfl, hHas, hSource⟩
  · refine Or.inr ⟨u, hTrim, hRead, hKind, ?_⟩
    rcases hText with ⟨hAlias, hAggregate⟩ | ⟨hNone, rfl⟩
    · rcases hNamed with ⟨aliasName, hOther, hSame⟩ | ⟨hNot, -⟩
      · rw [hAlias, Option.some.injEq] at hOther
        rwa [hOther]
      · rw [hAggregate] at hNot
        cases hNot
    · rcases hNamed with ⟨aliasName, hOther, -⟩ | ⟨-, hSame⟩
      · rw [hNone] at hOther
        cases hOther
      · exact hSame

section

variable (hNoTwins : schema.NoTwins)
variable (hClear : schema.IsClear scope)
variable (hListed : ∀ d ∈ list.items, d.IsListed schema scope)

include hNoTwins hClear hListed

/- What is found by the text means what the text means. -/
theorem meansSame_of_text
    (hFound : list.find? t = some item)
    (hOwn : Item.readExpression ⟨schema, scope, none⟩ t = .ok own)
    (hKind : own.isPlain = true ∨ own.isAggregate = true) :
    item.MeansSame schema own := by
  have hExpresses := Item.expresses_of_readExpression hOwn
  rcases spelled_of_find? hListed hFound
    with ⟨reference, rfl, hHas, hSame⟩ | ⟨u, hTrim, hRead, hOther, hSame⟩
  · -- The text spells the name of a field, and is read as it.
    rcases Option.isSome_iff_exists.mp hHas with ⟨field, hFind⟩
    rcases Schema.mem_of_find? hFind with ⟨hField, hName⟩
    rcases hClear.named field hField t own (hName.trans hSame).symm hOwn
      with ⟨hPlain, hSource⟩
    rcases hExpresses.eq_ofReference hPlain with ⟨reference', rfl⟩
    exact
      meansSame_of_plain
        (hNoTwins.find?_eq (hName.symm.trans hSource.symm))
  · -- It spells the text of a call, and is a call like that.
    rcases (Item.expresses_of_readExpression hRead).plain_or_aggregate
        hTrim hSame.symm hExpresses hKind
      with ⟨hPlain, -⟩ | ⟨hCall, hCall'⟩
    · rw [hOther] at hPlain
      cases hPlain
    · exact
        Item.meansSame_of_aggregateCall? hNoTwins hTrim hSame.symm hCall
          hCall'

/- What is found by the name in a text is the field of the name. -/
theorem meansSame_of_name
    {name : Text}
    {reference : Reference}
    (hName : scope.unqualified? t = .ok (some name))
    (hFound : list.find? name = some item)
    (hRead : Reference.ofText? schema scope t = .ok (some reference)) :
    item.MeansSame schema (Item.ofReference reference) := by
  have hBehind := hClear.behind t name reference hName hRead
  rcases (Reference.resolves_of_ofText? hRead).found
    with ⟨field, hFind, -⟩
  rcases Schema.mem_of_find? hFind with ⟨hField, hSpelled⟩
  rw [hBehind] at hSpelled
  rcases spelled_of_find? hListed hFound
    with ⟨other, rfl, hHas, hSame⟩ | ⟨u, hTrim, hText, hOther, hSame⟩
  · refine meansSame_of_plain (hNoTwins.find?_eq ?_)
    rw [hBehind]
    exact hSame
  · -- No other item goes by the name of a field.
    rcases hClear.named field hField u item (hSame.trans hSpelled.symm)
        hText
      with ⟨hPlain, -⟩
    rw [hOther] at hPlain
    cases hPlain

/-
  What is found in a list without aliases means what the text
  means by itself, if the names are clear and have no twins.
-/
theorem Finds.meansSame
    (hFinds : Finds schema scope list t item)
    (hOwn : Item.readExpression ⟨schema, scope, none⟩ t = .ok own)
    (hKind : own.isPlain = true ∨ own.isAggregate = true) :
    item.MeansSame schema own := by
  have hText :=
    (Item.expresses_of_readExpression hOwn).aggregate_or_field hKind
  cases hFinds with
  | text hFound =>
      exact meansSame_of_text hNoTwins hClear hListed hFound hOwn hKind
  | aggregate aggregate hRead hFound =>
      rcases hText with hCall | ⟨hNone, -⟩
      · rw [hRead] at hCall
        cases hCall
        have hSame := List.find?_some hFound
        exact
          meansSame_of_sameAggregate hNoTwins (of_decide_eq_true hSame)
            (Item.aliasName_of_aggregateCall? hRead).2
      · rcases Item.exists_call_of_aggregateCall? hRead
          with ⟨_, _, _, hCall, -, -⟩
        rw [hNone] at hCall
        cases hCall
  | name name hNone hName hFound =>
      rcases hText with hCall | ⟨-, -, -, reference, hReference, rfl⟩
      · rw [hNone] at hCall
        cases hCall
      · exact
          meansSame_of_name hNoTwins hClear hListed hName hFound
            hReference

end

end Environment

end SqlSelect
