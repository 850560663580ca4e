import SqlSelect.Item.Reading
import SqlSelect.Proofs.Origin.Names

/-
  Where the items of a list come from. A piece of a list is
  a star, which stands for the fields of the table, or it is
  one item: a field, an aggregate, a constant, a choice, or
  an item of the select list.

  Main statements:
    * `Item.Origin`
    * `Item.aggregates_of_readAggregate`
    * `Item.IsChoiceOf.origin`
    * `Item.origin_of_readExpression`
    * `Item.reads_of_readItem`
    * `ItemList.exists_reads_of_mem`
-/

namespace SqlSelect

namespace Item

variable {env : Environment}
variable {expression name argument t : Text}
variable {function : AggregateFunction}
variable {aliasName : Option Text}
variable {item : Item}

------------------------------------------------------------
-- Origins
------------------------------------------------------------

/- The item without its alias and its direction. -/
def content
    (item : Item) : Item :=
  { item with aliasName := none, direction := none }

theorem content_withAlias :
    (item.withAlias aliasName).content = item.content := by
  cases aliasName <;> rfl

/- The item is one of the fields that a star stands for. -/
def IsField
    (schema : Schema)
    (qualifier : Option Text)
    (item : Item) : Prop :=
  ∃ field ∈ schema.fields,
    item.content = ofReference ⟨qualifier, field.name, field.type⟩

/- What an item that is no star comes from. -/
inductive Origin
    (env : Environment)
    (item : Item) : Prop where
  | field
      (reference : Reference)
      (hResolves : reference.Resolves env.schema env.scope)
      (hContent : item.content = ofReference reference)
  | aggregate
      (reference : Reference)
      (function : AggregateFunction)
      (distinct : Bool)
      (hResolves : reference.Resolves env.schema env.scope)
      (hContent :
        item.content =
          { ofReference reference with
            function := some function
            distinct := distinct })
  | rowCount
      (hContent :
        item.content =
          { source := ['*']
            function := some .count
            countsRows := true })
  | constant
      (expression : Text)
      (value : Literal)
      (hContent : item.content = ofConstant expression value)
  | choice
      (expression : Text)
      (choice : Choice)
      (hRead :
        Condition.ofText env.tableOnly choice.conditionText =
          .ok choice.condition)
      (hContent :
        item.content = { source := expression, choice := some choice })
  | selected
      (other : Item)
      (hSelects : env.Selects other)
      (hContent : item.content = other.content)

/- The alias and the direction do not matter for it. -/
theorem Origin.of_content_eq
    {other : Item}
    (hOrigin : item.Origin env)
    (hSame : other.content = item.content) :
    other.Origin env := by
  cases hOrigin with
  | field reference hResolves hContent =>
      exact .field reference hResolves (hSame.trans hContent)
  | aggregate reference function distinct hResolves hContent =>
      exact
        .aggregate reference function distinct hResolves
          (hSame.trans hContent)
  | rowCount hContent =>
      exact .rowCount (hSame.trans hContent)
  | constant expression value hContent =>
      exact .constant expression value (hSame.trans hContent)
  | choice expression choice hRead hContent =>
      exact .choice expression choice hRead (hSame.trans hContent)
  | selected found hSelects hContent =>
      exact .selected found hSelects (hSame.trans hContent)

------------------------------------------------------------
-- Aggregates
------------------------------------------------------------

/- What an aggregate is read as: the rows, or one of a field. -/
inductive Aggregates
    (schema : Schema)
    (scope : Scope)
    (expression : Text)
    (function : AggregateFunction)
    (argument : Text)
    (item : Item) : Prop where
  | rowCount
      (hStar : Text.trim argument = ['*'])
      (hCount : function = .count)
      (hItem :
        item =
          { source := ['*']
            aliasName := some expression
            function := some function
            countsRows := true })
  | field
      (reference : Reference)
      (hOther : Text.trim argument ≠ ['*'])
      (hFound :
        Reference.ofText? schema scope
            (Text.trim (splitDistinct (Text.trim argument)).2) =
          .ok (some reference))
      (hItem :
        item =
          { ofReference reference with
            aliasName := some expression
            function := some function
            distinct := (splitDistinct (Text.trim argument)).1 })

theorem aggregates_of_readAggregate
    {schema : Schema}
    {scope : Scope}
    (hRead :
      readAggregate schema scope expression function argument =
        .ok item) :
    Aggregates schema scope expression function argument item := by
  rw [readAggregate] at hRead
  split_ifs at hRead with hStar
  · rw [readRowCount] at hRead
    split_ifs at hRead with hCount
    exact .rowCount hStar hCount (Except.ok.inj hRead).symm
  · simp only [readFieldAggregate] at hRead
    split_ifs at hRead
    rcases bind_eq_ok_iff.mp hRead with ⟨reference?, hFound, hRest⟩
    cases reference? with
    | none => cases hRest
    | some reference =>
        exact .field reference hStar hFound (Except.ok.inj hRest).symm

theorem origin_of_readAggregate
    (hRead :
      readAggregate env.schema env.scope expression function argument =
        .ok item) :
    item.Origin env := by
  cases aggregates_of_readAggregate hRead with
  | rowCount hStar hCount hItem =>
      exact .rowCount (by rw [hItem, content, hCount])
  | field reference hOther hFound hItem =>
      exact
        .aggregate reference function _
          (Reference.resolves_of_ofText? hFound) (congrArg content hItem)

/- The aggregate is the one of the text, or one selected. -/
theorem origin_of_readSelectedAggregate
    (hRead :
      readSelectedAggregate env expression function argument =
        .ok item) :
    item.Origin env := by
  rcases map_eq_ok_iff.mp hRead with ⟨aggregate, hAggregate, rfl⟩
  cases hFound :
      env.selected.bind fun list => list.findAggregate? aggregate with
  | none => exact origin_of_readAggregate hAggregate
  | some found =>
      rcases Option.bind_eq_some_iff.mp hFound with ⟨list, hList, hFind⟩
      exact
        .selected found ⟨list, hList, List.mem_of_find?_eq_some hFind⟩ rfl

------------------------------------------------------------
-- Choices
------------------------------------------------------------

/- The item is a choice by a condition on fields of the table. -/
def IsChoiceOf
    (env : Environment)
    (expression : Text)
    (item : Item) : Prop :=
  ∃ choice,
    Condition.ofText env.tableOnly choice.conditionText =
        .ok choice.condition ∧
      item = { source := expression, choice := some choice }

theorem IsChoiceOf.origin
    (hChoice : item.IsChoiceOf env expression) :
    item.Origin env := by
  rcases hChoice with ⟨choice, hRead, rfl⟩
  exact .choice expression choice hRead rfl

theorem isChoiceOf_of_readChoice
    {condition whenTrue whenFalse : Text}
    (hRead :
      readChoice env expression condition whenTrue whenFalse =
        .ok item) :
    item.IsChoiceOf env expression := by
  rcases bind_eq_ok_iff.mp hRead with ⟨test, hTest, hRest⟩
  rcases bind_eq_ok_iff.mp hRest with ⟨trueValue, -, hRest⟩
  rcases bind_eq_ok_iff.mp hRest with ⟨falseValue, -, hEq⟩
  rcases bind_eq_ok_iff.mp hTest with ⟨tree, hTree, hFilled⟩
  split_ifs at hFilled
  cases hFilled
  exact ⟨_, hTree, (Except.ok.inj hEq).symm⟩

theorem isChoiceOf_of_readConditional
    (hRead : readConditional env expression argument = .ok item) :
    item.IsChoiceOf env expression := by
  rcases bind_eq_ok_iff.mp hRead with ⟨parts, -, hRest⟩
  split at hRest
  · exact isChoiceOf_of_readChoice hRest
  · exact absurd hRest (by simp)

theorem isChoiceOf_of_readCase
    (hRead : readCase env expression = .ok item) :
    item.IsChoiceOf env expression := by
  rcases bind_eq_ok_iff.mp hRead with ⟨-, -, hRest⟩
  rcases bind_eq_ok_iff.mp hRest with ⟨condition, -, hRest⟩
  rcases bind_eq_ok_iff.mp hRest with ⟨whenTrue, -, hRest⟩
  rcases bind_eq_ok_iff.mp hRest with ⟨whenFalse, -, hChoice⟩
  exact isChoiceOf_of_readChoice hChoice

------------------------------------------------------------
-- Expressions
------------------------------------------------------------

theorem origin_of_readCall
    (hRead : readCall env expression name argument = .ok item) :
    item.Origin env := by
  rw [readCall] at hRead
  split at hRead
  · exact origin_of_readSelectedAggregate hRead
  · split_ifs at hRead
    exact (isChoiceOf_of_readConditional hRead).origin

theorem origin_of_readField
    (hRead : readField env expression = .ok item) :
    item.Origin env := by
  rcases bind_eq_ok_iff.mp hRead with ⟨selected?, hSelected, hRest⟩
  split at hRest
  · cases hRest
    exact
      .selected item (Environment.selects_of_selectedField? hSelected) rfl
  · rcases map_eq_ok_iff.mp hRest with ⟨reference, hTable, rfl⟩
    exact
      .field reference (Environment.resolves_of_tableField hTable) rfl

/- Whatever an expression looks like, its origin is known. -/
theorem origin_of_readExpression
    (hRead : readExpression env expression = .ok item) :
    item.Origin env := by
  rcases bind_eq_ok_iff.mp hRead with ⟨call?, -, hRest⟩
  split at hRest
  · exact origin_of_readCall hRest
  · split_ifs at hRest
    · exact (isChoiceOf_of_readCase hRest).origin
    · split at hRest
      · cases hRest
        exact .constant expression _ rfl
      · exact origin_of_readField hRest

------------------------------------------------------------
-- Pieces of a List
------------------------------------------------------------

/-
  What is left of a piece without a direction, if it can have
  one, and without an alias, and the alias.
-/
def cutEnds
    (ordered : Bool)
    (t : Text) : Except Error (Text × Option Text) :=
  if ordered then do
    let (body, _) ← cutDirection (Text.trim t)
    cutAlias body
  else cutAlias (Text.trim t)

/- The direction at the end of a piece, if it can have one. -/
def endDirection?
    (ordered : Bool)
    (t : Text) : Option Direction :=
  if ordered then (cutDirection (Text.trim t)).toOption.map Prod.snd
  else none

/- The item with the direction, if there is one. -/
def withDirection
    (direction : Option Direction)
    (item : Item) : Item :=
  match direction with
  | none => item
  | some direction => { item with direction := some direction }

theorem content_withDirection
    (direction : Option Direction)
    (item : Item) :
    (item.withDirection direction).content = item.content := by
  cases direction <;> rfl

/-
  The ends of a piece are cut off, what is left is read, and
  the items that it stands for are given the direction.
-/
theorem exists_readAliased_of_readItem
    {ordered : Bool}
    {items : List Item}
    (hRead : readItem env ordered t = .ok items) :
    ∃ expression aliasName plain,
      cutEnds ordered t = .ok (expression, aliasName) ∧
        readAliased env expression aliasName = .ok plain ∧
        (endDirection? ordered t).isSome = ordered ∧
        items = plain.map (withDirection (endDirection? ordered t)) := by
  rw [readItem] at hRead
  split_ifs at hRead with hEmpty hOrdered
  · rcases bind_eq_ok_iff.mp hRead with ⟨⟨body, direction⟩, hBody, hRest⟩
    rcases bind_eq_ok_iff.mp hRest with
      ⟨⟨expression, aliasName⟩, hAlias, hRest⟩
    rcases bind_eq_ok_iff.mp hRest with ⟨plain, hPlain, hEq⟩
    cases hEq
    have hDirection : endDirection? ordered t = some direction := by
      rw [endDirection?, if_pos hOrdered, hBody]
      rfl
    refine ⟨expression, aliasName, plain, ?_, hPlain, ?_, ?_⟩
    · rw [cutEnds, if_pos hOrdered, hBody]
      exact hAlias
    · rw [hDirection, hOrdered]
      rfl
    · rw [hDirection]
      rfl
  · rcases bind_eq_ok_iff.mp hRead with
      ⟨⟨expression, aliasName⟩, hAlias, hPlain⟩
    have hDirection : endDirection? ordered t = none := by
      rw [endDirection?, if_neg hOrdered]
    refine ⟨expression, aliasName, items, ?_, hPlain, ?_, ?_⟩
    · rw [cutEnds, if_neg hOrdered]
      exact hAlias
    · rw [hDirection, Bool.eq_false_of_not_eq_true hOrdered]
      rfl
    · rw [hDirection]
      exact (List.map_id items).symm

/-
  What is left is a star without an alias, or it is an item
  of the select list or an expression.
-/
theorem cases_of_readAliased
    {items : List Item}
    (hRead : readAliased env expression aliasName = .ok items) :
    (∃ qualifier,
      star? expression = .ok (some qualifier) ∧
        aliasName.isSome = false ∧
        items = allFields env.schema qualifier) ∨
      star? expression = .ok none ∧
        ∃ item,
          items = [item.withAlias aliasName] ∧
            (env.selected? expression = some item ∨
              env.selected? expression = none ∧
                readExpression env expression = .ok item) := by
  rcases bind_eq_ok_iff.mp hRead with ⟨star, hStar, hRest⟩
  cases star with
  | some qualifier =>
      simp only at hRest
      split_ifs at hRest with hAlias
      cases hRest
      exact Or.inl ⟨qualifier, hStar, Bool.eq_false_of_not_eq_true hAlias, rfl⟩
  | none =>
      refine Or.inr ⟨hStar, ?_⟩
      simp only at hRest
      cases hFound : env.selected? expression with
      | some item =>
          rw [hFound] at hRest
          cases hRest
          exact ⟨item, rfl, Or.inl rfl⟩
      | none =>
          rw [hFound] at hRest
          rcases map_eq_ok_iff.mp hRest with ⟨item, hItem, rfl⟩
          exact ⟨item, rfl, Or.inr ⟨rfl, hItem⟩⟩

/- The piece is a star of the qualifier, or one without any. -/
def IsStar
    (ordered : Bool)
    (qualifier : Option Text)
    (t : Text) : Prop :=
  ∃ expression aliasName,
    cutEnds ordered t = .ok (expression, aliasName) ∧
      star? expression = .ok (some qualifier)

/- A piece is a star of one qualifier only. -/
theorem IsStar.unique
    {ordered : Bool}
    {qualifier qualifier' : Option Text}
    (hStar : IsStar ordered qualifier t)
    (hStar' : IsStar ordered qualifier' t) :
    qualifier = qualifier' := by
  rcases hStar with ⟨expression, aliasName, hCut, hFound⟩
  rcases hStar' with ⟨expression', aliasName', hCut', hFound'⟩
  rw [hCut] at hCut'
  cases hCut'
  rw [hFound] at hFound'
  exact Option.some.inj (Except.ok.inj hFound')

/-
  What a piece of a list is read as, up to the directions:
  the fields for a star, and otherwise one item.
-/
inductive Reads
    (env : Environment)
    (ordered : Bool)
    (t : Text)
    (items : List Item) : Prop where
  | star
      (qualifier : Option Text)
      (hStar : IsStar ordered qualifier t)
      (hContents :
        items.map content = allFields env.schema qualifier)
  | single
      (item : Item)
      (hNoStar : ∀ qualifier, ¬ IsStar ordered qualifier t)
      (hOrigin : item.Origin env)
      (hItems : items = [item])

theorem map_content_allFields
    (schema : Schema)
    (qualifier : Option Text) :
    (allFields schema qualifier).map content =
      allFields schema qualifier := by
  rw [allFields, List.map_map]
  rfl

/- What a star is read as are the fields of the table. -/
theorem isField_of_mem
    {schema : Schema}
    {qualifier : Option Text}
    {items : List Item}
    (hContents : items.map content = allFields schema qualifier)
    (hMem : item ∈ items) :
    item.IsField schema qualifier := by
  have hContent : item.content ∈ allFields schema qualifier := by
    rw [← hContents]
    exact List.mem_map_of_mem hMem
  rcases List.mem_map.mp hContent with ⟨field, hField, hEq⟩
  exact ⟨field, hField, hEq.symm⟩

theorem reads_of_readAliased
    {ordered : Bool}
    {items : List Item}
    (hCut : cutEnds ordered t = .ok (expression, aliasName))
    (hRead : readAliased env expression aliasName = .ok items) :
    Reads env ordered t items := by
  rcases cases_of_readAliased hRead
    with ⟨qualifier, hStar, -, rfl⟩ | ⟨hStar, item, rfl, hItem⟩
  · exact
      .star qualifier ⟨expression, aliasName, hCut, hStar⟩
        (map_content_allFields _ _)
  · have hNoStar : ∀ qualifier, ¬ IsStar ordered qualifier t := by
      rintro qualifier ⟨expression', aliasName', hCut', hStar'⟩
      rw [hCut] at hCut'
      cases hCut'
      rw [hStar] at hStar'
      exact absurd hStar' (by simp)
    have hOrigin : item.Origin env := by
      rcases hItem with hFound | ⟨-, hExpression⟩
      · exact .selected item (Environment.selects_of_selected? hFound) rfl
      · exact origin_of_readExpression hExpression
    exact
      .single _ hNoStar (hOrigin.of_content_eq content_withAlias) rfl

/- Directions are added to what the piece is read as. -/
theorem Reads.withDirection
    {ordered : Bool}
    {items : List Item}
    (direction : Option Direction)
    (hReads : Reads env ordered t items) :
    Reads env ordered t (items.map (withDirection direction)) := by
  cases hReads with
  | star qualifier hStar hContents =>
      refine .star qualifier hStar ?_
      rw [← hContents, List.map_map]
      exact
        List.map_congr_left fun item _ => content_withDirection direction item
  | single item hNoStar hOrigin hItems =>
      subst hItems
      exact
        .single (item.withDirection direction) hNoStar
          (hOrigin.of_content_eq (content_withDirection direction item)) rfl

theorem reads_of_readItem
    {ordered : Bool}
    {items : List Item}
    (hRead : readItem env ordered t = .ok items) :
    Reads env ordered t items := by
  rcases exists_readAliased_of_readItem hRead
    with ⟨expression, aliasName, plain, hCut, hPlain, -, rfl⟩
  exact (reads_of_readAliased hCut hPlain).withDirection _

end Item

------------------------------------------------------------
-- Lists
------------------------------------------------------------

namespace ItemList

variable {env : Environment}
variable {ordered : Bool}
variable {t : Text}
variable {list : ItemList}

/- The pieces of a list, which has none if it is blank. -/
def pieces
    (t : Text) : Except Error (List Text) :=
  let rest := (Item.splitDistinct (Text.trim t)).2
  if Text.IsBlank rest then .ok [] else Text.splitTop ',' rest

/- A list is read piece by piece. -/
theorem rows_of_ofText
    (hRead : ofText env ordered t = .ok list) :
    ∃ texts rows,
      pieces t = .ok texts ∧ list.items = rows.flatten ∧
        List.Forall₂
          (fun piece items => Item.readItem env ordered piece = .ok items)
          texts rows := by
  rw [ofText] at hRead
  rw [pieces]
  split at hRead
  rename_i distinct rest hSplit
  rw [hSplit]
  split_ifs at hRead ⊢
  · cases hRead
    exact ⟨[], [], rfl, rfl, .nil⟩
  · rcases bind_eq_ok_iff.mp hRead with ⟨texts, hTexts, hRest⟩
    rcases bind_eq_ok_iff.mp hRest with ⟨rows, hRows, hEq⟩
    cases hEq
    exact ⟨texts, rows, hTexts, rfl, Condition.mapM_eq_ok_iff.mp hRows⟩

/- The items of a list are those of its pieces, in order. -/
theorem reads_of_ofText
    (hRead : ofText env ordered t = .ok list) :
    ∃ texts rows,
      pieces t = .ok texts ∧ list.items = rows.flatten ∧
        List.Forall₂
          (fun piece items => Item.Reads env ordered piece items)
          texts rows := by
  rcases rows_of_ofText hRead with ⟨texts, rows, hTexts, hItems, hRows⟩
  exact
    ⟨texts, rows, hTexts, hItems,
      hRows.imp fun _ _ hPiece => Item.reads_of_readItem hPiece⟩

/- Every item of a list comes from one of its pieces. -/
theorem exists_reads_of_mem
    {item : Item}
    (hRead : ofText env ordered t = .ok list)
    (hMem : item ∈ list.items) :
    ∃ piece items,
      Item.Reads env ordered piece items ∧ item ∈ items := by
  rcases reads_of_ofText hRead with ⟨texts, rows, -, hItems, hReads⟩
  rw [hItems] at hMem
  rcases List.mem_flatten.mp hMem with ⟨row, hRow, hIn⟩
  rcases Condition.exists_of_mem_forall₂ hReads hRow with ⟨piece, -, hPiece⟩
  exact ⟨piece, row, hPiece, hIn⟩

end ItemList

end SqlSelect
