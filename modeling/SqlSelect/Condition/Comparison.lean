import SqlSelect.Text.Basic

/-
  The operators that compare the two sides of a predicate,
  and how each of them is spelled.

  Key definitions include:
    * `Comparison`
    * `Comparison.spelling`
    * `Comparison.ofSymbol?`
    * `Comparison.ofWord?`
-/

namespace SqlSelect

/-
  A comparison. `parameter` is no comparison of values: it
  binds a value to a parameter name and always holds.
-/
inductive Comparison where
  | eq
  | gt
  | ge
  | lt
  | le
  | ne
  | like
  | regexp
  | inList
  | isNull
  | isNotNull
  | parameter
  deriving DecidableEq

namespace Comparison

/- The operator as it is written. -/
def spelling : Comparison → Text
  | .eq => "=".toList
  | .gt => ">".toList
  | .ge => ">=".toList
  | .lt => "<".toList
  | .le => "<=".toList
  | .ne => "<>".toList
  | .like => "LIKE".toList
  | .regexp => "REGEXP".toList
  | .inList => "IN".toList
  | .isNull => "IS NULL".toList
  | .isNotNull => "IS NOT NULL".toList
  | .parameter => "PARAMETER".toList

/-
  The comparison that a run of symbols stands for. Two of
  them have a second spelling.
-/
def ofSymbol? : Text → Option Comparison
  | ['='] => some .eq
  | ['>'] => some .gt
  | ['>', '='] => some .ge
  | ['=', '>'] => some .ge
  | ['<'] => some .lt
  | ['<', '='] => some .le
  | ['<', '>'] => some .ne
  | ['!', '='] => some .ne
  | _ => none

/-
  The comparison with one operand on its right that a word
  stands for, whatever its letter case.
-/
def ofWord?
    (word : Text) : Option Comparison :=
  if Text.SameWord word "LIKE".toList then some .like
  else if Text.SameWord word "REGEX".toList then some .regexp
  else if Text.SameWord word "REGEXP".toList then some .regexp
  else none

end Comparison

end SqlSelect
