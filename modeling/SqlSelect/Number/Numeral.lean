import SqlSelect.Text.Basic

/-
  Decimal numerals: the digits of whole numbers, and numbers
  written with a decimal point.

  Key definitions include:
    * `IsDigits`
    * `digitsValue`
    * `digitsOf`
    * `Numeral`
    * `Numeral.ofText?`
    * `Numeral.digits`
    * `Numeral.scale`
    * `Numeral.filled`
    * `integerOfText?`
    * `naturalOfText?`
    * `positional`
-/

namespace SqlSelect

------------------------------------------------------------
-- Digits
------------------------------------------------------------

/- The text consists of decimal digits, or of nothing. -/
def IsDigits
    (t : Text) : Prop :=
  t.all Char.isDigit = true

instance
    (t : Text) :
    Decidable (IsDigits t) := by
  unfold IsDigits
  infer_instance

/- The number that the digits denote. -/
def digitsValue
    (t : Text) : Nat :=
  Nat.ofDigitChars 10 t 0

/- The digits of a number, without leading zeros. -/
def digitsOf
    (n : Nat) : Text :=
  Nat.toDigits 10 n

/- The digits of a number with zeros in front up to a width. -/
def paddedDigits
    (width n : Nat) : Text :=
  List.replicate (width - (digitsOf n).length) '0' ++ digitsOf n

------------------------------------------------------------
-- Signs
------------------------------------------------------------

/- A minus sign for a negative number. -/
def minusSign
    (negative : Bool) : Text :=
  if negative then ['-'] else []

/- The sign in front of a text, and the rest. -/
def splitSign : Text → Bool × Text
  | '-' :: rest => (true, rest)
  | '+' :: rest => (false, rest)
  | t => (false, t)

------------------------------------------------------------
-- Whole Numbers
------------------------------------------------------------

/- The number lies in the range of 64 bits with a sign. -/
def IsInt64
    (n : Int) : Prop :=
  -Int.pow 2 63 ≤ n ∧ n < Int.pow 2 63

instance
    (n : Int) :
    Decidable (IsInt64 n) := by
  unfold IsInt64
  infer_instance

/-
  The whole number that a text denotes: a sign or none, and
  digits. It has to fit into 64 bits.
-/
def integerOfText?
    (t : Text) : Option Int :=
  let (negative, digits) := splitSign t
  let size : Int := digitsValue digits
  let value := if negative then -size else size
  if digits ≠ [] ∧ IsDigits digits ∧ IsInt64 value then some value
  else none

/- A whole number as it is written. -/
def integerText
    (n : Int) : Text :=
  minusSign (decide (n < 0)) ++ digitsOf n.natAbs

/-
  The number without a sign that a text denotes: a plus sign
  or none, and digits. It has to fit into 64 bits.
-/
def naturalOfText?
    (t : Text) : Option Nat :=
  let digits := if t.head? = some '+' then t.tail else t
  if digits ≠ [] ∧ IsDigits digits ∧ digitsValue digits < Nat.pow 2 64 then
    some (digitsValue digits)
  else none

------------------------------------------------------------
-- Numbers with a Point
------------------------------------------------------------

/- A number written with digits on both sides of a point. -/
structure Numeral where
  negative : Bool
  whole : Text
  fraction : Text
  deriving DecidableEq

namespace Numeral

/-
  Read a numeral: a sign or none, and digits with one point
  among them, in front of them or behind.
-/
def ofText?
    (t : Text) : Option Numeral :=
  let (negative, digits) := splitSign t
  (Text.cutAt? '.' digits).bind fun (whole, fraction) =>
    if (whole ≠ [] ∨ fraction ≠ []) ∧ IsDigits whole ∧ IsDigits fraction
    then some ⟨negative, whole, fraction⟩
    else none

/- The number that the digits denote without the point. -/
def digits
    (n : Numeral) : Nat :=
  digitsValue (n.whole ++ n.fraction)

/- Number of digits behind the point. -/
def scale
    (n : Numeral) : Nat :=
  n.fraction.length

/- The digits in front of the point, at least a zero. -/
def filledWhole
    (n : Numeral) : Text :=
  if n.whole = [] then ['0'] else n.whole

/-
  The numeral without its sign, with a zero for a missing
  whole part, and with the point only if digits follow it.
-/
def filled
    (n : Numeral) : Text :=
  if n.fraction = [] then n.filledWhole
  else n.filledWhole ++ '.' :: n.fraction

end Numeral

/-
  Write `digits` with the last `scale` of them behind a point,
  and without a point if there are none.
-/
def positional
    (digits scale : Nat) : Text :=
  let written := paddedDigits (scale + 1) digits
  let whole := written.take (written.length - scale)
  let fraction := written.drop (written.length - scale)
  if scale = 0 then whole else whole ++ '.' :: fraction

end SqlSelect
