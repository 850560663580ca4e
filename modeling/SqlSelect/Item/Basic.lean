import SqlSelect.Condition.Basic
import SqlSelect.Item.Function

/-
  Items of the lists behind SELECT, GROUP BY and ORDER BY,
  and the search for an item that a name or an aggregate
  refers to.

  Key definitions include:
    * `Choice`
    * `Item`
    * `Item.columnName`
    * `Item.isPlain`
    * `Item.Kind`
    * `Item.isOf`
    * `ItemList`
    * `ItemList.ofKind`
    * `ItemList.find?`
    * `ItemList.findAggregate?`
    * `ItemList.position?`
    * `ItemList.same`
-/

namespace SqlSelect

------------------------------------------------------------
-- Choices
------------------------------------------------------------

/- One of two values, as a condition decides. -/
structure Choice where
  conditionText : Text
  condition : Condition
  whenTrue : Literal
  whenFalse : Literal
  deriving DecidableEq

namespace Choice

/- Two choices are equal, with equal values. -/
def same
    (a b : Choice) : Bool :=
  a.conditionText == b.conditionText
    && Condition.same a.condition b.condition
    && decide (Literal.SameValue a.whenTrue b.whenTrue)
    && decide (Literal.SameValue a.whenFalse b.whenFalse)

/- Both choices are missing, or they are equal. -/
def sameOptional : Option Choice → Option Choice → Bool
  | none, none => true
  | some a, some b => same a b
  | _, _ => false

end Choice

------------------------------------------------------------
-- Items
------------------------------------------------------------

/-
  An item of a list. The source is the name of a field, a
  star, or the text of a function or constant. The type is
  known for fields and constants, the constant and the choice
  are there for items of these kinds, and the direction for
  items of an order.
-/
structure Item where
  source : Text
  qualifier : Option Text := none
  aliasName : Option Text := none
  function : Option AggregateFunction := none
  distinct : Bool := false
  countsRows : Bool := false
  type : Option FieldType := none
  constant : Option Literal := none
  choice : Option Choice := none
  direction : Option Direction := none
  deriving DecidableEq

namespace Item

/- The name of the column that the item gives. -/
def columnName
    (item : Item) : Text :=
  item.aliasName.getD item.source

/- The item is an aggregate. -/
def isAggregate
    (item : Item) : Bool :=
  item.function.isSome

/- The item is a constant. -/
def isConstant
    (item : Item) : Bool :=
  item.constant.isSome

/- The item is a choice between two values. -/
def isChoice
    (item : Item) : Bool :=
  item.choice.isSome

/- The item is none of these, but a field. -/
def isPlain
    (item : Item) : Bool :=
  !item.isAggregate && !item.isConstant && !item.isChoice

/- The kinds of items. -/
inductive Kind where
  | aggregate
  | constant
  | choice
  | plain
  deriving DecidableEq

/- Every kind of item. -/
def Kind.all : List Kind :=
  [.aggregate, .constant, .choice, .plain]

/- The item is of the kind. -/
def isOf
    (item : Item) : Kind → Bool
  | .aggregate => item.isAggregate
  | .constant => item.isConstant
  | .choice => item.isChoice
  | .plain => item.isPlain

/- The item with another alias, if there is one. -/
def withAlias
    (aliasName : Option Text)
    (item : Item) : Item :=
  match aliasName with
  | none => item
  | some aliasName => { item with aliasName := some aliasName }

/- Two items are equal, with equal values. -/
def same
    (a b : Item) : Bool :=
  (a.source == b.source && a.qualifier == b.qualifier)
    && (a.aliasName == b.aliasName && a.function == b.function)
    && (a.distinct == b.distinct && a.countsRows == b.countsRows)
    && (a.type == b.type && a.direction == b.direction)
    && decide (Literal.SameOptional a.constant b.constant)
    && Choice.sameOptional a.choice b.choice

/- The items compute one aggregate of one field. -/
def SameAggregate
    (a b : Item) : Prop :=
  (a.isAggregate = true ∧ a.function = b.function) ∧
    (a.distinct = b.distinct ∧ a.countsRows = b.countsRows) ∧
    Text.SameWord a.source b.source

instance
    (a b : Item) :
    Decidable (SameAggregate a b) := by
  unfold SameAggregate
  infer_instance

end Item

------------------------------------------------------------
-- Lists of Items
------------------------------------------------------------

/- A list of items, each of its rows once or not. -/
structure ItemList where
  distinct : Bool
  items : List Item
  deriving DecidableEq

namespace ItemList

/- The items of one kind, in order. -/
def ofKind
    (list : ItemList)
    (kind : Item.Kind) : List Item :=
  list.items.filter fun item => item.isOf kind

/-
  The item that a name refers to: the first with the name as
  its alias, and otherwise the first with it as its source
  that is no aggregate. The letter case does not count.
-/
def find?
    (list : ItemList)
    (name : Text) : Option Item :=
  (list.items.find? fun item =>
      item.aliasName.any fun aliasName => Text.SameWord aliasName name).or
    (list.items.find? fun item =>
      !item.isAggregate && Text.SameWord item.source name)

/- The first item that computes the same as an aggregate. -/
def findAggregate?
    (list : ItemList)
    (aggregate : Item) : Option Item :=
  list.items.find? fun item => item.SameAggregate aggregate

/- The place of an item in the list, counted from zero. -/
def position?
    (list : ItemList)
    (item : Item) : Option Nat :=
  list.items.findIdx? fun other => item.same other

/- Two lists are equal item by item. -/
def sameItems : List Item → List Item → Bool
  | [], [] => true
  | a :: as, b :: bs => a.same b && sameItems as bs
  | _, _ => false

/- Two lists are equal, with equal values. -/
def same
    (a b : ItemList) : Bool :=
  a.distinct == b.distinct && sameItems a.items b.items

end ItemList

end SqlSelect
