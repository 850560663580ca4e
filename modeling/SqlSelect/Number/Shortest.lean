import SqlSelect.Number.Binary64

/-
  The shortest decimal text of a binary floating point
  number. Among the decimals that round to the number it
  takes those with the fewest digits, and of these the one
  nearest to the number; of two equally near ones the larger.
  The text has no exponent, and a point only where places
  follow.

  Key definitions include:
    * `Rounding`
    * `Rounding.ofParts`
    * `Rounding.nearestAt?`
    * `Rounding.shortest`
    * `Binary64.text`
    * `Binary64.pointedText`
-/

namespace SqlSelect

------------------------------------------------------------
-- The Interval of a Number
------------------------------------------------------------

/-
  The decimals that round to a positive number, in units of
  `num / den`: the number itself, the ends of the interval
  around it, and whether the ends belong to it.
-/
structure Rounding where
  num : Nat
  den : Nat
  value : Nat
  low : Nat
  high : Nat
  closed : Bool
  deriving DecidableEq

namespace Rounding

/-
  The interval around `significand * 2 ^ exponent`. Its unit
  is a quarter of the last binary place. Below a power of two
  the next number is only half as far away.
-/
def ofParts
    (significand : Nat)
    (exponent : Int) : Rounding :=
  let (num, den) := divTwoPow 1 1 (2 - exponent)
  let isPower :=
    significand = Nat.pow 2 52 ∧ Binary64.minExponent < exponent
  { num := num
    den := den
    value := 4 * significand
    low := if isPower then 4 * significand - 1 else 4 * significand - 2
    high := 4 * significand + 2
    closed := significand % 2 = 0 }

/-
  Number of digits in front of the point, or the number of
  zeros behind it as a negative number, when the value is
  between zero and one.
-/
def magnitude
    (r : Rounding) : Int :=
  let top := r.value * r.num
  if r.den ≤ top then (digitsOf (top / r.den)).length
  else 1 - Int.ofNat (digitsOf ((r.den - 1) / top)).length

/- The multiple of the power of ten lies in the interval. -/
def Contains
    (r : Rounding)
    (multiple : Nat)
    (power : Int) : Prop :=
  let scaled := multiple * Nat.pow 10 power.toNat * r.den
  let unit := r.num * Nat.pow 10 (-power).toNat
  if r.closed then r.low * unit ≤ scaled ∧ scaled ≤ r.high * unit
  else r.low * unit < scaled ∧ scaled < r.high * unit

instance
    (r : Rounding)
    (multiple : Nat)
    (power : Int) :
    Decidable (r.Contains multiple power) := by
  unfold Contains
  infer_instance

/-
  The multiple of the power of ten in the interval that is
  nearest to the value. The two neighbours of the value are
  the only candidates.
-/
def nearestAt?
    (r : Rounding)
    (power : Int) : Option Nat :=
  let grid := Nat.pow 10 power.toNat * r.den
  let scaled := r.value * (r.num * Nat.pow 10 (-power).toNat)
  let floor := scaled / grid
  let first := if 2 * (scaled % grid) < grid then floor else floor + 1
  let second := if first = floor then floor + 1 else floor
  if r.Contains first power then some first
  else if r.Contains second power then some second
  else none

/-
  The multiple and the power of ten of the shortest decimal,
  among the powers from `power` down.
-/
def search
    (r : Rounding) : Nat → Int → Nat × Int
  | 0, power => ((r.nearestAt? power).getD 0, power)
  | steps + 1, power =>
      match r.nearestAt? power with
      | some multiple => (multiple, power)
      | none => r.search steps (power - 1)

/-
  The shortest decimal. Seventeen digits are always enough.
-/
def shortest
    (r : Rounding) : Nat × Int :=
  r.search 17 r.magnitude

end Rounding

------------------------------------------------------------
-- Texts
------------------------------------------------------------

namespace Binary64

/- The number in digits. -/
def text : Binary64 → Text
  | .infinite negative => minusSign negative ++ "inf".toList
  | .finite negative 0 _ => minusSign negative ++ ['0']
  | .finite negative significand exponent =>
      let (multiple, power) := (Rounding.ofParts significand exponent).shortest
      minusSign negative
        ++ positional (multiple * Nat.pow 10 power.toNat) (-power).toNat

/-
  The number in digits, with a point also when no places
  follow it.
-/
def pointedText
    (x : Binary64) : Text :=
  let written := x.text
  if written.all (fun c => c.isDigit || c == '-') then
    written ++ ".0".toList
  else written

end Binary64

end SqlSelect
