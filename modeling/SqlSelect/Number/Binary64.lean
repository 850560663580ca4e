import SqlSelect.Number.Numeral

/-
  Binary floating point numbers of 64 bits: a significand of
  53 bits and an exponent. A ratio is rounded to the nearest
  such number, and a ratio halfway between two of them to the
  one with the even significand.

  Key definitions include:
    * `Binary64`
    * `Binary64.SameValue`
    * `roundHalfEven`
    * `Binary64.lastPlace`
    * `Binary64.ofRatio`
    * `Binary64.ofNumeral`
-/

namespace SqlSelect

/-
  A finite number is `significand * 2 ^ exponent` with a
  sign, where the significand has 53 bits unless the exponent
  is the smallest one.
-/
inductive Binary64 where
  | finite (negative : Bool) (significand : Nat) (exponent : Int)
  | infinite (negative : Bool)
  deriving DecidableEq

namespace Binary64

/- The smallest exponent of a number. -/
def minExponent : Int :=
  -1074

/- The largest exponent of a finite number. -/
def maxExponent : Int :=
  971

/- Two numbers are equal. Zero has one value and two signs. -/
def SameValue
    (x y : Binary64) : Prop :=
  match x, y with
  | .finite s m e, .finite s' m' e' =>
      (m = 0 ∧ m' = 0) ∨ (s = s' ∧ m = m' ∧ e = e')
  | .infinite s, .infinite s' => s = s'
  | _, _ => False

instance
    (x y : Binary64) :
    Decidable (SameValue x y) := by
  unfold SameValue
  split <;> infer_instance

end Binary64

------------------------------------------------------------
-- Rounding
------------------------------------------------------------

/-
  The whole number nearest to a ratio. Of two that are
  equally near it is the even one.
-/
def roundHalfEven
    (num den : Nat) : Nat :=
  let floor := num / den
  let twice := 2 * (num % den)
  if twice < den then floor
  else if den < twice then floor + 1
  else floor + floor % 2

/- The ratio divided by a power of two, as a ratio. -/
def divTwoPow
    (num den : Nat)
    (exponent : Int) : Nat × Nat :=
  (num * Nat.pow 2 (-exponent).toNat, den * Nat.pow 2 exponent.toNat)

namespace Binary64

/-
  The exponent of the last binary place that is kept of a
  positive ratio: 52 places below its first one, and never
  below the smallest exponent.
-/
def lastPlace
    (num den : Nat) : Int :=
  let guess : Int := Int.ofNat num.log2 - Int.ofNat den.log2
  let (scaled, unit) := divTwoPow num den guess
  let first := if unit ≤ scaled then guess else guess - 1
  max (first - 52) minExponent

/- The number nearest to a ratio. -/
def ofRatio
    (negative : Bool)
    (num den : Nat) : Binary64 :=
  if num = 0 then .finite negative 0 minExponent
  else
    let place := lastPlace num den
    let (scaled, unit) := divTwoPow num den place
    let rounded := roundHalfEven scaled unit
    let (significand, exponent) :=
      if rounded = Nat.pow 2 53 then (Nat.pow 2 52, place + 1)
      else (rounded, place)
    if maxExponent < exponent then .infinite negative
    else .finite negative significand exponent

/- The number nearest to a numeral. -/
def ofNumeral
    (n : Numeral) : Binary64 :=
  ofRatio n.negative n.digits (Nat.pow 10 n.scale)

end Binary64

end SqlSelect
