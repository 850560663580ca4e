import SqlSelect.Condition.Basic

/-
  The truth of a condition. Among the conditions of a group
  AND binds tighter than OR, and one that is not the first
  and has no keyword of its own is joined with AND.

  Key definitions include:
    * `Condition.someHold`
    * `Condition.groupHolds`
    * `Condition.holds`
    * `Condition.nesting`
-/

namespace SqlSelect

namespace Condition

/-
  Some run of values between two occurrences of OR consists
  of truths, or the first run does and `current` holds.
-/
def someHold
    (current : Bool) : List (Connective × Bool) → Bool
  | [] => current
  | (.or, value) :: rest => current || someHold value rest
  | (_, value) :: rest => someHold (current && value) rest

/- The value of a group. A group of none always holds. -/
def groupHolds : List (Connective × Bool) → Bool
  | [] => true
  | (_, value) :: rest => someHold value rest

mutual

/- The value of a condition under values of its predicates. -/
def holds
    (truth : Predicate → Bool) : Condition → Bool
  | .atom negated _ predicate => negated ^^ truth predicate
  | .group negated _ children =>
      negated ^^ groupHolds (values truth children)

/- The values of some conditions, and what joins them. -/
def values
    (truth : Predicate → Bool) :
    List Condition → List (Connective × Bool)
  | [] => []
  | child :: rest =>
      (child.connective, holds truth child) :: values truth rest

end

mutual

/- The largest number of groups of one inside each other. -/
def nesting : Condition → Nat
  | .atom _ _ _ => 0
  | .group _ _ children =>
      nestingOf children + if children.length = 1 then 1 else 0

/- The largest nesting of some conditions. -/
def nestingOf : List Condition → Nat
  | [] => 0
  | child :: rest => max (nesting child) (nestingOf rest)

end

end Condition

end SqlSelect
