import SqlSelect.Item.Basic
import SqlSelect.Reference

/-
  Reading aggregates. An aggregate that has no other alias
  goes by its own text.

  Key definitions include:
    * `Item.ofReference`
    * `Item.readAggregate`
    * `Item.aggregateCall?`
-/

namespace SqlSelect

namespace Item

/- The item of a field. -/
def ofReference
    (reference : Reference) : Item :=
  { source := reference.name
    qualifier := reference.qualifier
    type := some reference.type }

/-
  The number of all rows. No other function takes a star for
  its argument.
-/
def readRowCount
    (expression : Text)
    (function : AggregateFunction) : Except Error Item :=
  if function = .count then
    .ok
      { source := ['*']
        aliasName := some expression
        function := some function
        countsRows := true }
  else .error (.malformed (.starArgument function))

/-
  The text behind a leading DISTINCT, and whether there is
  one.
-/
def splitDistinct
    (t : Text) : Bool × Text :=
  match (Cursor.ofText t).afterKeyword? "DISTINCT".toList with
  | some after => (true, after.rest)
  | none => (false, t)

/- Read an aggregate of the field that a text refers to. -/
def readFieldAggregate
    (schema : Schema)
    (scope : Scope)
    (expression : Text)
    (function : AggregateFunction)
    (distinct : Bool)
    (field : Text) : Except Error Item :=
  if field = [] then
    .error (.malformed (.missingArgument expression))
  else do
    match ← Reference.ofText? schema scope field with
    | none => .error (.unknownField field)
    | some reference =>
        .ok
          { ofReference reference with
            aliasName := some expression
            function := some function
            distinct := distinct }

/-
  Read the argument of an aggregate: a star, or a field with
  DISTINCT in front of it or without.
-/
def readAggregate
    (schema : Schema)
    (scope : Scope)
    (expression : Text)
    (function : AggregateFunction)
    (argument : Text) : Except Error Item :=
  let inner := Text.trim argument
  if inner = ['*'] then readRowCount expression function
  else
    let (distinct, rest) := splitDistinct inner
    readFieldAggregate schema scope expression function distinct
      (Text.trim rest)

/- Read a text as an aggregate, if it is a call of one. -/
def aggregateCall?
    (schema : Schema)
    (scope : Scope)
    (expression : Text) : Except Error (Option Item) := do
  match ← Text.call? expression with
  | none => return none
  | some (name, argument) =>
      match AggregateFunction.ofWord? name with
      | none => return none
      | some function =>
          return some
            (← readAggregate schema scope expression function argument)

end Item

end SqlSelect
