import SqlSelect.Condition.Reading
import SqlSelect.Nesting.Section

/-
  Reading lists of items. The items of an order may end in a
  direction. Every item may end in an alias, with AS in front
  of it or without. What is left is a star, an item of the
  select list, a function, a choice, a constant or a field,
  and the first of these that fits is taken.

  Key definitions include:
    * `Item.cutDirection`
    * `Item.cutAlias`
    * `Item.star?`
    * `Item.readChoice`
    * `Item.readCase`
    * `Item.readCall`
    * `Item.readExpression`
    * `Item.readItem`
    * `ItemList.ofText`
-/

namespace SqlSelect

namespace Item

------------------------------------------------------------
-- Directions and Aliases
------------------------------------------------------------

/-
  Split off a direction at the end, unless it is the only
  word. Without one the order goes up.
-/
def cutDirection
    (t : Text) : Except Error (Text × Direction) :=
  (Text.topWords t).map fun words =>
    match words.words.reverse with
    | last :: _ :: before =>
        match Direction.ofWord? last with
        | some direction =>
            (words.through (before.length + 1), direction)
        | none => (t, .ascending)
    | _ => (t, .ascending)

/- The word is one of the keywords. -/
def IsOneOf
    (keywords : List Text)
    (word : Text) : Prop :=
  (keywords.any fun keyword => decide (Text.SameWord word keyword)) = true

instance
    (keywords : List Text)
    (word : Text) :
    Decidable (IsOneOf keywords word) := by
  unfold IsOneOf
  infer_instance

/- Keywords that are no aliases unless they are in quotes. -/
def notAliases : List Text :=
  ["END".toList, "AS".toList, "DESC".toList, "ASC".toList]

/- Words that belong to the word behind them. -/
def bindingWords : List Text :=
  ["DATE".toList, "TIMESTAMP".toList, "DISTINCT".toList]

/-
  The word is an alias without AS: a plain name or a name in
  quotes, neither a keyword nor part of a constant.
-/
def IsAliasAfter
    (before word : Text) : Prop :=
  (Name.IsEnclosed '"' word ∨ Name.IsEnclosed '\x60' word ∨
    Text.IsPlainName word) ∧
    ¬ IsOneOf notAliases word ∧ ¬ IsOneOf bindingWords before

instance
    (before word : Text) :
    Decidable (IsAliasAfter before word) := by
  unfold IsAliasAfter
  infer_instance

/- Split off the last word, if it is an alias without AS. -/
def cutLastAlias
    (t : Text)
    (words : Words)
    (reversed : List Text) : Text × Option Text :=
  match reversed with
  | last :: before :: rest =>
      if IsAliasAfter before last then
        (words.through (rest.length + 1), some (Name.unquote last))
      else (t, none)
  | _ => (t, none)

/- Split off an alias at the end. -/
def cutAlias
    (t : Text) : Except Error (Text × Option Text) :=
  (Text.topWords t).map fun words =>
    match words.words.reverse with
    | last :: keyword :: before :: rest =>
        if Text.SameWord keyword "AS".toList then
          (words.through (rest.length + 1), some (Name.unquote last))
        else cutLastAlias t words (last :: keyword :: before :: rest)
    | reversed => cutLastAlias t words reversed

------------------------------------------------------------
-- Stars
------------------------------------------------------------

/-
  The qualifier of a star, which may have none, if the
  expression is a star.
-/
def star?
    (expression : Text) : Except Error (Option (Option Text)) :=
  if expression = ['*'] then .ok (some none)
  else if ".*".toList.isSuffixOf expression then
    (Name.qualified expression).map fun (qualifier, name) =>
      if name = ['*'] then some qualifier else none
  else .ok none

/- An item for each field of the table. -/
def allFields
    (schema : Schema)
    (qualifier : Option Text) : List Item :=
  schema.fields.map fun field =>
    ofReference ⟨qualifier, field.name, field.type⟩

------------------------------------------------------------
-- Choices
------------------------------------------------------------

/- Read the value of a branch, which has to be a literal. -/
def readBranch
    (t : Text) : Except Error Literal :=
  let value := Text.trim t
  match Literal.ofText? value with
  | some value => .ok value
  | none => .error (.invalidLiteral value)

/-
  Read the condition of a choice, which must not be missing.
  It refers to fields of the table only.
-/
def readTest
    (env : Environment)
    (expression conditionText : Text) : Except Error Condition := do
  let condition ← Condition.ofText env.tableOnly conditionText
  if condition.isEmpty then
    .error (.malformed (.missingCondition expression))
  else .ok condition

/- Read a choice between two values from its three parts. -/
def readChoice
    (env : Environment)
    (expression condition whenTrue whenFalse : Text) :
    Except Error Item := do
  let conditionText := Text.trim condition
  let test ← readTest env expression conditionText
  let trueValue ← readBranch whenTrue
  let falseValue ← readBranch whenFalse
  .ok
    { source := expression
      choice := some ⟨conditionText, test, trueValue, falseValue⟩ }

/- Read a choice from the three arguments of a function. -/
def readConditional
    (env : Environment)
    (expression arguments : Text) : Except Error Item := do
  match ← Text.splitTop ',' arguments with
  | [condition, whenTrue, whenFalse] =>
      readChoice env expression condition whenTrue whenFalse
  | parts =>
      .error (.malformed (.argumentCount parts.length expression))

/- The text between two keywords, which must not be blank. -/
def requireSection
    (expression opening closing : Text) : Except Error Text := do
  match ← Text.section? opening [closing] expression with
  | some found => .ok found
  | none => .error (.malformed (.missingKeyword opening expression))

/- The keyword that ends a case must be the last word. -/
def requireEnd
    (expression : Text) : Except Error Unit := do
  match (← Text.cutAtKeyword "END".toList expression).afterFirst? with
  | none =>
      .error (.malformed (.missingKeyword "END".toList expression))
  | some [] => .ok ()
  | some _ =>
      .error (.malformed (.textAfterKeyword "END".toList expression))

/- Read a choice from the keywords of a case. -/
def readCase
    (env : Environment)
    (expression : Text) : Except Error Item := do
  let () ← requireEnd expression
  let condition ←
    requireSection expression "WHEN".toList "THEN".toList
  let whenTrue ←
    requireSection expression "THEN".toList "ELSE".toList
  let whenFalse ←
    requireSection expression "ELSE".toList "END".toList
  readChoice env expression condition whenTrue whenFalse

------------------------------------------------------------
-- Expressions
------------------------------------------------------------

/-
  Read an aggregate. An aggregate that the select list has is
  taken from there.
-/
def readSelectedAggregate
    (env : Environment)
    (expression : Text)
    (function : AggregateFunction)
    (argument : Text) : Except Error Item :=
  (readAggregate env.schema env.scope expression function argument).map
    fun aggregate =>
      (env.selected.bind fun list => list.findAggregate? aggregate).getD
        aggregate

/- Read a call of a function. -/
def readCall
    (env : Environment)
    (expression name arguments : Text) : Except Error Item :=
  match AggregateFunction.ofWord? name with
  | some function =>
      readSelectedAggregate env expression function arguments
  | none =>
      if Text.SameWord name "IIF".toList then
        readConditional env expression arguments
      else .error (.malformed (.unknownFunction name))

/- The item of a constant. -/
def ofConstant
    (expression : Text)
    (value : Literal) : Item :=
  { source := expression
    type := some (.ofCategory value.category)
    constant := some value }

/- Read a field: an item of the select list or of the table. -/
def readField
    (env : Environment)
    (expression : Text) : Except Error Item := do
  match ← env.selectedField? expression with
  | some item => .ok item
  | none => (env.tableField expression).map ofReference

/- Read what is neither a star nor an item of the select list. -/
def readExpression
    (env : Environment)
    (expression : Text) : Except Error Item := do
  match ← Text.call? expression with
  | some (name, arguments) => readCall env expression name arguments
  | none =>
      if ((Cursor.ofText expression).afterKeyword? "CASE".toList).isSome then
        readCase env expression
      else
        match Literal.ofText? expression with
        | some value => .ok (ofConstant expression value)
        | none => readField env expression

/- Read what is left of an item without direction and alias. -/
def readAliased
    (env : Environment)
    (expression : Text)
    (aliasName : Option Text) : Except Error (List Item) := do
  match ← star? expression with
  | some qualifier =>
      if aliasName.isSome then
        .error (.malformed (.starWithAlias expression))
      else .ok (allFields env.schema qualifier)
  | none =>
      match env.selected? expression with
      | some item => .ok [item.withAlias aliasName]
      | none =>
          (readExpression env expression).map fun item =>
            [item.withAlias aliasName]

/-
  Read an item of a list, with a direction if the list is an
  order. A star stands for several items.
-/
def readItem
    (env : Environment)
    (ordered : Bool)
    (t : Text) : Except Error (List Item) :=
  let item := Text.trim t
  if item = [] then .error (.malformed .emptyItem)
  else if ordered then do
    let (body, direction) ← cutDirection item
    let (expression, aliasName) ← cutAlias body
    let items ← readAliased env expression aliasName
    .ok (items.map fun item => { item with direction := some direction })
  else do
    let (expression, aliasName) ← cutAlias item
    readAliased env expression aliasName

end Item

------------------------------------------------------------
-- Lists
------------------------------------------------------------

/-
  Read a list of items. A list of an order has `ordered` set
  and takes directions.
-/
def ItemList.ofText
    (env : Environment)
    (ordered : Bool)
    (t : Text) : Except Error ItemList :=
  let (distinct, rest) := Item.splitDistinct (Text.trim t)
  if Text.IsBlank rest then .ok ⟨distinct, []⟩
  else do
    let pieces ← Text.splitTop ',' rest
    let items ← pieces.mapM (Item.readItem env ordered)
    .ok ⟨distinct, items.flatten⟩

end SqlSelect
