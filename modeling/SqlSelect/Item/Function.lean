import SqlSelect.Text.Basic

/-
  The functions that aggregate the values of a field, and
  the two directions of an order.

  Key definitions include:
    * `AggregateFunction`
    * `AggregateFunction.spelling`
    * `AggregateFunction.ofWord?`
    * `Direction`
    * `Direction.spelling`
    * `Direction.ofWord?`
-/

namespace SqlSelect

------------------------------------------------------------
-- Aggregate Functions
------------------------------------------------------------

/- A function of all values of a field in a group of rows. -/
inductive AggregateFunction where
  | sum
  | count
  | min
  | max
  | avg
  deriving DecidableEq

namespace AggregateFunction

/- The name of the function. -/
def spelling : AggregateFunction → Text
  | .sum => "SUM".toList
  | .count => "COUNT".toList
  | .min => "MIN".toList
  | .max => "MAX".toList
  | .avg => "AVG".toList

/- Every aggregate function. -/
def all : List AggregateFunction :=
  [.sum, .count, .min, .max, .avg]

/- The function of a name, whatever its letter case. -/
def ofWord?
    (word : Text) : Option AggregateFunction :=
  all.find? fun function => Text.SameWord word function.spelling

end AggregateFunction

------------------------------------------------------------
-- Directions
------------------------------------------------------------

/- Whether an order goes up or down. -/
inductive Direction where
  | ascending
  | descending
  deriving DecidableEq

namespace Direction

/- The keyword of the direction. -/
def spelling : Direction → Text
  | .ascending => "ASC".toList
  | .descending => "DESC".toList

/- The direction of a keyword, whatever its letter case. -/
def ofWord?
    (word : Text) : Option Direction :=
  if Text.SameWord word "ASC".toList then some .ascending
  else if Text.SameWord word "DESC".toList then some .descending
  else none

end Direction

end SqlSelect
