import SqlSelect.Condition.Comparison
import SqlSelect.Literal.Basic

/-
  Conditions as trees: predicates, and groups of conditions
  that are joined with AND and OR.

  Key definitions include:
    * `Connective`
    * `Predicate`
    * `Condition`
    * `Condition.predicates`
    * `Condition.parameters`
    * `Condition.same`
-/

namespace SqlSelect

------------------------------------------------------------
-- Predicates
------------------------------------------------------------

/- How a condition is joined to its neighbour in front. -/
inductive Connective where
  | first
  | and
  | or
  deriving DecidableEq

namespace Connective

/- The keyword that joins, and none for the first condition. -/
def spelling : Connective → Text
  | .first => []
  | .and => "AND".toList
  | .or => "OR".toList

end Connective

/-
  A comparison. On its left is a field, or the name of a
  parameter. On its right are a field, or a value and the
  text of it, or the text alone: several values in one text,
  or the value of a parameter.
-/
structure Predicate where
  left : Text
  comparison : Comparison
  rightText : Option Text
  rightField : Option Text
  value : Option Literal
  deriving DecidableEq

namespace Predicate

/- A comparison with nothing on its right. -/
def bare
    (left : Text)
    (comparison : Comparison) : Predicate :=
  ⟨left, comparison, none, none, none⟩

/- Two predicates are equal, with equal values. -/
def SameValue
    (p q : Predicate) : Prop :=
  (p.left = q.left ∧ p.comparison = q.comparison) ∧
    (p.rightText = q.rightText ∧ p.rightField = q.rightField) ∧
    Literal.SameOptional p.value q.value

instance
    (p q : Predicate) :
    Decidable (SameValue p q) := by
  unfold SameValue
  infer_instance

end Predicate

------------------------------------------------------------
-- Trees
------------------------------------------------------------

/-
  A predicate or a group of conditions, each with NOT in
  front of it or without, and joined to the condition in
  front. A group of one condition stands for parentheses, and
  a group of none for a condition that always holds.
-/
inductive Condition where
  | atom
      (negated : Bool)
      (connective : Connective)
      (predicate : Predicate)
  | group
      (negated : Bool)
      (connective : Connective)
      (children : List Condition)

namespace Condition

/- The condition that always holds. -/
def empty : Condition :=
  .group false .first []

/- There is NOT in front of the condition. -/
def negated : Condition → Bool
  | .atom negated _ _ => negated
  | .group negated _ _ => negated

/- How the condition is joined to the one in front. -/
def connective : Condition → Connective
  | .atom _ connective _ => connective
  | .group _ connective _ => connective

/- The conditions in a group. -/
def children : Condition → List Condition
  | .atom _ _ _ => []
  | .group _ _ children => children

/- The condition is a predicate. -/
def isAtom : Condition → Bool
  | .atom _ _ _ => true
  | .group _ _ _ => false

/- The condition is a group of none. -/
def isEmpty : Condition → Bool
  | .atom _ _ _ => false
  | .group _ _ children => children.isEmpty

/- The condition, joined in the way given. -/
def joinedBy
    (connective : Connective) : Condition → Condition
  | .atom negated _ predicate => .atom negated connective predicate
  | .group negated _ children => .group negated connective children

/- The condition, with NOT in front of it if `flip` says so. -/
def negatedIf
    (flip : Bool) : Condition → Condition
  | .atom negated connective predicate =>
      .atom (negated ^^ flip) connective predicate
  | .group negated connective children =>
      .group (negated ^^ flip) connective children

/- A condition in parentheses. -/
def enclosed
    (inner : Condition) : Condition :=
  .group false .first [inner]

------------------------------------------------------------
-- Parts of a Tree
------------------------------------------------------------

mutual

/- The predicates of the tree, from left to right. -/
def predicates : Condition → List Predicate
  | .atom _ _ predicate => [predicate]
  | .group _ _ children => predicatesOf children

/- The predicates of some trees, from left to right. -/
def predicatesOf : List Condition → List Predicate
  | [] => []
  | child :: rest => predicates child ++ predicatesOf rest

end

/- The parameters that the tree binds, with their values. -/
def parameters
    (c : Condition) : List (Text × Text) :=
  (c.predicates.filter fun p => p.comparison == .parameter).map fun p =>
    (p.left, p.rightText.getD [])

------------------------------------------------------------
-- Equality
------------------------------------------------------------

mutual

/- Decide whether two trees are the same in all. -/
def decEq : (c d : Condition) → Decidable (c = d)
  | .atom n j p, .atom n' j' q =>
      decidable_of_iff (n = n' ∧ j = j' ∧ p = q) (by simp)
  | .group n j cs, .group n' j' ds =>
      match decEqAll cs ds with
      | isTrue h => decidable_of_iff (n = n' ∧ j = j') (by simp [h])
      | isFalse h => isFalse (by simp [h])
  | .atom _ _ _, .group _ _ _ => isFalse (by simp)
  | .group _ _ _, .atom _ _ _ => isFalse (by simp)

/- Decide whether two lists of trees are the same in all. -/
def decEqAll : (cs ds : List Condition) → Decidable (cs = ds)
  | [], [] => isTrue rfl
  | c :: cs, d :: ds =>
      match decEq c d, decEqAll cs ds with
      | isTrue h, isTrue hs => isTrue (by simp [h, hs])
      | isFalse h, _ => isFalse (by simp [h])
      | _, isFalse hs => isFalse (by simp [hs])
  | [], _ :: _ => isFalse (by simp)
  | _ :: _, [] => isFalse (by simp)

end

instance : DecidableEq Condition :=
  decEq

mutual

/- Two trees have one shape and equal predicates. -/
def same : Condition → Condition → Bool
  | .atom negated connective p, .atom negated' connective' q =>
      (negated == negated' && connective == connective')
        && decide (p.SameValue q)
  | .group negated connective cs, .group negated' connective' ds =>
      (negated == negated' && connective == connective') && sameAll cs ds
  | _, _ => false

/- Two lists of trees are of one length and equal in order. -/
def sameAll : List Condition → List Condition → Bool
  | [], [] => true
  | c :: cs, d :: ds => same c d && sameAll cs ds
  | _, _ => false

end

end Condition

end SqlSelect
