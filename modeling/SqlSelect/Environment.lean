import SqlSelect.Item.Aggregate

/-
  What the names in a list or condition can refer to: the
  fields of a table, and the items of a select list if there
  is one. The select list comes first.

  Key definitions include:
    * `Environment`
    * `Environment.selectedField?`
    * `Environment.selectedAggregate?`
    * `Environment.tableField`
    * `Environment.fieldName`
-/

namespace SqlSelect

/- The fields and the select list that names refer to. -/
structure Environment where
  schema : Schema
  scope : Scope
  selected : Option ItemList
  deriving DecidableEq

namespace Environment

/- The environment without a select list. -/
def tableOnly
    (env : Environment) : Environment :=
  { env with selected := none }

/- The item of the select list that a name refers to. -/
def selected?
    (env : Environment)
    (name : Text) : Option Item :=
  env.selected.bind fun list => list.find? name

/-
  The item of the select list that the name in a text refers
  to, without its qualifier.
-/
def selectedField?
    (env : Environment)
    (t : Text) : Except Error (Option Item) :=
  match env.selected with
  | none => .ok none
  | some list =>
      (env.scope.unqualified? t).map fun name =>
        name.bind fun name => list.find? name

/-
  The item of the select list that computes the aggregate
  which a text calls. If the text calls one, the select list
  has to have it.
-/
def selectedAggregate?
    (env : Environment)
    (t : Text) : Except Error (Option Item) :=
  match env.selected with
  | none => .ok none
  | some list => do
      match ← Item.aggregateCall? env.schema env.scope t with
      | none => .ok none
      | some aggregate =>
          match list.findAggregate? aggregate with
          | none => .error (.unknownField t)
          | some item => .ok (some item)

/- The field of the table that a text refers to. -/
def tableField
    (env : Environment)
    (t : Text) : Except Error Reference := do
  match ← Reference.ofText? env.schema env.scope t with
  | none => .error (.unknownField t)
  | some reference => .ok reference

/-
  The name of what an operand refers to: an item of the
  select list by its name, its aggregate or its unqualified
  name, or a field of the table.
-/
def fieldName
    (env : Environment)
    (operand : Text) : Except Error Text :=
  let t := Text.trim operand
  match env.selected? t with
  | some item => .ok item.columnName
  | none => do
      match ← env.selectedAggregate? t with
      | some item => .ok item.columnName
      | none =>
          match ← env.selectedField? t with
          | some item => .ok item.columnName
          | none => (env.tableField t).map Reference.name

end Environment

end SqlSelect
