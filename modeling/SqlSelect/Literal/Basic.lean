import SqlSelect.FieldType
import SqlSelect.Literal.Quoted
import SqlSelect.Number.Decimal
import SqlSelect.Number.Shortest
import SqlSelect.Timestamp.Basic

/-
  Literals: the values that a query can spell out, when two
  of them are equal, and how they are shown and written.

  Key definitions include:
    * `Literal`
    * `Literal.category`
    * `Literal.SameValue`
    * `Literal.SameOptional`
    * `Literal.shown`
    * `Literal.written`
-/

namespace SqlSelect

/- A value that is spelled out in a query. -/
inductive Literal where
  | string (value : Text)
  | integer (value : Int)
  | number (value : Binary64)
  | bigNumber (value : Decimal)
  | boolean (value : Bool)
  | date (value : Timestamp)
  deriving DecidableEq

namespace Literal

/- The category of the value. -/
def category : Literal → Category
  | .string _ => .string
  | .integer _ => .integer
  | .number _ => .number
  | .bigNumber _ => .bigNumber
  | .boolean _ => .boolean
  | .date _ => .date

/-
  Two literals are of one kind and equal. Numbers are
  compared by their value.
-/
def SameValue : Literal → Literal → Prop
  | .string a, .string b => a = b
  | .integer a, .integer b => a = b
  | .number a, .number b => a.SameValue b
  | .bigNumber a, .bigNumber b => a.SameValue b
  | .boolean a, .boolean b => a = b
  | .date a, .date b => a = b
  | _, _ => False

instance
    (a b : Literal) :
    Decidable (SameValue a b) := by
  unfold SameValue
  split <;> infer_instance

/- Both values are missing, or they are equal. -/
def SameOptional : Option Literal → Option Literal → Prop
  | none, none => True
  | some a, some b => SameValue a b
  | _, _ => False

instance
    (a b : Option Literal) :
    Decidable (SameOptional a b) := by
  unfold SameOptional
  split <;> infer_instance

/- The value without any sign of what kind it is. -/
def shown : Literal → Text
  | .string value => value
  | .integer value => integerText value
  | .number value => value.text
  | .bigNumber value => value.text
  | .boolean true => "true".toList
  | .boolean false => "false".toList
  | .date value => value.slashed

/- The value as it is written in a query. -/
def written : Literal → Text
  | .string value => Quoted.quote value
  | .integer value => integerText value
  | .number value => value.pointedText
  | .bigNumber value => value.text
  | .boolean true => "TRUE".toList
  | .boolean false => "FALSE".toList
  | .date value => '[' :: (value.slashed ++ [']'])

end Literal

end SqlSelect
