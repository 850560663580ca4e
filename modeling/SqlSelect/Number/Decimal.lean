import SqlSelect.Number.Numeral

/-
  Decimal numbers at full precision: a coefficient of at most
  96 bits and a scale of at most 28 places, as written. Zeros
  at the end count, and zero keeps its sign.

  Key definitions include:
    * `Decimal`
    * `Decimal.unrounded?`
    * `Decimal.ofUnsigned?`
    * `Decimal.ofNumeral?`
    * `Decimal.text`
    * `Decimal.SameValue`
-/

namespace SqlSelect

/-
  The number with the digits of `coefficient`, the last
  `scale` of them behind the point.
-/
structure Decimal where
  negative : Bool
  coefficient : Nat
  scale : Nat
  deriving DecidableEq

namespace Decimal

/- The largest coefficient. -/
def maxCoefficient : Nat :=
  Nat.pow 2 96 - 1

/- The largest scale. -/
def maxScale : Nat :=
  28

/-
  The number without a sign that the digits in front of the
  point and behind it denote. It is not rounded, so that it
  has to fit.
-/
def unrounded?
    (whole fraction : Text) : Option Decimal :=
  let coefficient := digitsValue (whole ++ fraction)
  if whole ≠ [] ∧ IsDigits whole ∧ IsDigits fraction ∧
      coefficient ≤ maxCoefficient ∧ fraction.length ≤ maxScale then
    some ⟨false, coefficient, fraction.length⟩
  else none

/-
  The number that a text without a sign denotes: digits alone,
  or digits with a point between them.
-/
def ofUnsigned?
    (t : Text) : Option Decimal :=
  match Text.cutAt? '.' t with
  | none => unrounded? t []
  | some (whole, fraction) =>
      if fraction = [] then none else unrounded? whole fraction

/-
  The number of a numeral. The numeral is filled before it is
  read, and the number takes its sign.
-/
def ofNumeral?
    (n : Numeral) : Option Decimal :=
  (ofUnsigned? n.filled).map fun d =>
    { d with negative := n.negative }

/- The number as it is written, with all of its places. -/
def text
    (d : Decimal) : Text :=
  minusSign d.negative ++ positional d.coefficient d.scale

/-
  Two numbers have the same value, whatever the number of
  places they are written with and the sign of zero.
-/
def SameValue
    (d e : Decimal) : Prop :=
  d.coefficient * Nat.pow 10 e.scale = e.coefficient * Nat.pow 10 d.scale ∧
    (d.coefficient = 0 ∨ d.negative = e.negative)

instance
    (d e : Decimal) :
    Decidable (SameValue d e) := by
  unfold SameValue
  infer_instance

end Decimal

end SqlSelect
