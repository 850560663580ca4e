import SqlSelect.Literal.Basic
import SqlSelect.Timestamp.Reading

/-
  Reading literals. A text is tried as a string, a date, a
  whole number, a number with a point and a truth value, in
  this order. A number with a point and more than fifteen
  significant digits is kept at full precision.

  Key definitions include:
    * `Literal.Form`
    * `Literal.ofForm?`
    * `Literal.ofText?`
-/

namespace SqlSelect

namespace Literal

------------------------------------------------------------
-- Dates
------------------------------------------------------------

/- The text between square brackets. -/
def bracketed?
    (t : Text) : Option Text :=
  if 2 ≤ t.length ∧ t.head? = some '[' ∧ t.getLast? = some ']' then
    some (Text.inner t)
  else none

/- The value of the string literal behind a keyword. -/
def stringAfter?
    (keyword t : Text) : Option Text :=
  Quoted.unquote? (Text.trim (t.drop keyword.length))

/-
  Read a date: a day with slashes between brackets, with a
  time or without, or a keyword and a string with dashes in
  the day.
-/
def readDate?
    (t : Text) : Option Timestamp :=
  match bracketed? t with
  | some interior =>
      let inside := Text.trim interior
      (Timestamp.readMoment? '/' inside).or
        (Timestamp.readDay? '/' inside)
  | none =>
      if Text.startsWord "TIMESTAMP".toList t then
        (stringAfter? "TIMESTAMP".toList t).bind fun value =>
          Timestamp.readMoment? '-' (Text.trim value)
      else if Text.startsWord "DATE".toList t then
        (stringAfter? "DATE".toList t).bind fun value =>
          Timestamp.readDay? '-' (Text.trim value)
      else none

------------------------------------------------------------
-- The Forms of Literals
------------------------------------------------------------

/- The forms in which literals are written. -/
inductive Form where
  | string
  | integer
  | number
  | bigNumber
  | boolean
  | date
  deriving DecidableEq

/- Read a truth value, in any letter case. -/
def readBoolean?
    (t : Text) : Option Bool :=
  if Text.SameWord t "true".toList then some true
  else if Text.SameWord t "false".toList then some false
  else none

/- Read a trimmed text as a literal of one form. -/
def ofTrimmed?
    (form : Form)
    (t : Text) : Option Literal :=
  match form with
  | .string => (Quoted.unquote? t).map .string
  | .integer => (integerOfText? t).map .integer
  | .number =>
      (Numeral.ofText? t).map fun n => .number (Binary64.ofNumeral n)
  | .bigNumber =>
      ((Numeral.ofText? t).bind Decimal.ofNumeral?).map .bigNumber
  | .boolean => (readBoolean? t).map .boolean
  | .date => (readDate? t).map .date

/- Read a text as a literal of one form. -/
def ofForm?
    (form : Form)
    (t : Text) : Option Literal :=
  ofTrimmed? form (Text.trim t)

/- The most significant digits of a number that is rounded. -/
def maxRoundedDigits : Nat :=
  15

/- Number of digits in a text without the zeros in front. -/
def significantDigits
    (t : Text) : Nat :=
  ((t.filter Char.isDigit).dropWhile fun c => c == '0').length

/- Whether a number with a point is rounded or kept. -/
def pointForm
    (t : Text) : Form :=
  if maxRoundedDigits < significantDigits t then .bigNumber else .number

/- Read a text as a literal of the first form that it has. -/
def ofText?
    (t : Text) : Option Literal :=
  [.string, .date, .integer, pointForm t, .boolean].findSome? fun form =>
    ofForm? form t

end Literal

end SqlSelect
