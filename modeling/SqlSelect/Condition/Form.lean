import Mathlib.Data.List.Chain
import SqlSelect.Condition.Basic
import SqlSelect.Text.Blank

/-
  The form of conditions: what stands on the right of a
  predicate, how the conditions of a group are joined, and
  which parentheses they are written with.

  Key definitions include:
    * `Predicate.WellFormed`
    * `Condition.groups`
    * `Condition.chained`
    * `Condition.alternatives`
    * `Condition.JoinedWith`
    * `Condition.FitsIn`
    * `Condition.IsRegular`
    * `Condition.WellFormed`
    * `Condition.mapPredicates`
    * `Condition.levels`
    * `Condition.showsOr`
    * `Condition.IsFilled`
    * `Condition.GuardsOr`
-/

namespace SqlSelect

------------------------------------------------------------
-- Predicates
------------------------------------------------------------

namespace Predicate

/-
  The predicate has on its right what its comparison calls
  for: nothing, a text alone, or a field or else a value and
  the text that it is shown as. A parameter has a name and a
  value that are not blank.
-/
def WellFormed
    (p : Predicate) : Prop :=
  match p.comparison with
  | .isNull =>
      (p.rightText = none ∧ p.rightField = none) ∧ p.value = none
  | .isNotNull =>
      (p.rightText = none ∧ p.rightField = none) ∧ p.value = none
  | .inList =>
      p.rightText.isSome = true ∧ p.rightField = none ∧ p.value = none
  | .parameter =>
      ¬ Text.IsBlank p.left ∧
        p.rightText.any (fun t => decide (¬ Text.IsBlank t)) = true ∧
        p.rightField = none ∧ p.value = none
  | _ =>
      (p.rightField.isSome = true ∧ p.rightText = none ∧ p.value = none) ∨
        (p.value.isSome = true ∧ p.rightText = p.value.map Literal.shown ∧
          p.rightField = none)

instance
    (p : Predicate) :
    Decidable p.WellFormed := by
  unfold WellFormed
  split <;> infer_instance

end Predicate

namespace Condition

@[simp]
theorem connective_joinedBy
    (connective : Connective)
    (c : Condition) :
    (c.joinedBy connective).connective = connective := by
  cases c <;> rfl

@[simp]
theorem joinedBy_joinedBy
    (c : Condition)
    (inner outer : Connective) :
    (c.joinedBy inner).joinedBy outer = c.joinedBy outer := by
  cases c <;> rfl

------------------------------------------------------------
-- Groups
------------------------------------------------------------

mutual

/- The groups of the tree, each as the list of its conditions. -/
def groups : Condition → List (List Condition)
  | .atom _ _ _ => []
  | .group _ _ children => children :: groupsOf children

/- The groups of some trees. -/
def groupsOf : List Condition → List (List Condition)
  | [] => []
  | child :: rest => groups child ++ groupsOf rest

end

/-
  The conditions with `connective` in front of all but the
  first.
-/
def chained
    (connective : Connective) : List Condition → List Condition
  | [] => []
  | first :: rest =>
      first.joinedBy .first :: rest.map fun c => c.joinedBy connective

/-
  The conditions of a group of several with OR between them,
  or the condition itself.
-/
def alternatives : Condition → List Condition
  | .group negated connective (first :: second :: rest) =>
      if second.connective = .or then first :: second :: rest
      else [.group negated connective (first :: second :: rest)]
  | c => [c]

------------------------------------------------------------
-- Well-Formed Trees
------------------------------------------------------------

/-
  The first of the conditions is joined to none in front, and
  all others are joined with `connective`.
-/
def JoinedWith
    (connective : Connective) : List Condition → Prop
  | [] => True
  | first :: rest =>
      first.connective = .first ∧
        ∀ c ∈ rest, c.connective = connective

instance
    (connective : Connective)
    (cs : List Condition) :
    Decidable (JoinedWith connective cs) := by
  cases cs <;> unfold JoinedWith <;> infer_instance

/-
  The condition may be one of several that are joined with
  `connective`: a predicate, a condition in parentheses, or
  among those joined with OR several that are joined with
  AND.
-/
def FitsIn
    (connective : Connective) : Condition → Prop
  | .atom _ _ _ => True
  | .group negated _ children =>
      negated = false ∧
        (children.length = 1 ∨
          (connective = .or ∧ 2 ≤ children.length ∧
            JoinedWith .and children))

instance
    (connective : Connective)
    (c : Condition) :
    Decidable (c.FitsIn connective) := by
  cases c <;> unfold FitsIn <;> infer_instance

/-
  The conditions make a group that is joined with
  `connective`. One condition alone may be any.
-/
def IsRegular
    (connective : Connective)
    (cs : List Condition) : Prop :=
  (cs ≠ [] ∧ JoinedWith connective cs) ∧
    (2 ≤ cs.length → ∀ c ∈ cs, c.FitsIn connective)

instance
    (connective : Connective)
    (cs : List Condition) :
    Decidable (IsRegular connective cs) := by
  unfold IsRegular
  infer_instance

/-
  The tree is joined to nothing in front, has no NOT in front
  of it unless it is a predicate, and all of its groups are
  joined with AND or with OR throughout.
-/
def WellFormed
    (c : Condition) : Prop :=
  (c.connective = .first ∧ (c.isAtom = true ∨ c.negated = false)) ∧
    ∀ cs ∈ c.groups, IsRegular .and cs ∨ IsRegular .or cs

instance
    (c : Condition) :
    Decidable c.WellFormed := by
  unfold WellFormed
  infer_instance

------------------------------------------------------------
-- Predicates of a Tree
------------------------------------------------------------

mutual

/- The tree with other predicates in the places of its own. -/
def mapPredicates
    (f : Predicate → Predicate) : Condition → Condition
  | .atom negated connective predicate =>
      .atom negated connective (f predicate)
  | .group negated connective children =>
      .group negated connective (mapPredicatesOf f children)

/- Some trees with other predicates. -/
def mapPredicatesOf
    (f : Predicate → Predicate) : List Condition → List Condition
  | [] => []
  | child :: rest => mapPredicates f child :: mapPredicatesOf f rest

end

------------------------------------------------------------
-- Parentheses
------------------------------------------------------------

mutual

/-
  The largest number of parentheses inside each other that
  the tree is written with. A group of one has them, and so
  has a group with NOT in front of it, unless it stands
  `alone` in the parentheses of another.
-/
def levels : Bool → Condition → Nat
  | _, .atom _ _ _ => 0
  | alone, .group negated _ children =>
      (if children.length = 1 then levelsOf true children + 1
        else levelsOf false children) +
        if negated && !alone then 1 else 0

/- The largest number of parentheses in some trees. -/
def levelsOf : Bool → List Condition → Nat
  | _, [] => 0
  | alone, child :: rest =>
      max (levels alone child) (levelsOf alone rest)

end

mutual

/-
  The tree is written with OR in it that stands in no
  parentheses.
-/
def showsOr : Condition → Bool
  | .atom _ _ _ => false
  | .group negated _ children =>
      (!negated && decide (2 ≤ children.length)) &&
        (children.tail.any (fun c => c.connective == .or) ||
          anyShowsOr children)

/- Any of the trees is written with such an OR. -/
def anyShowsOr : List Condition → Bool
  | [] => false
  | child :: rest => showsOr child || anyShowsOr rest

end

/- There is a condition in every group of the tree. -/
def IsFilled
    (c : Condition) : Prop :=
  ∀ cs ∈ c.groups, cs ≠ []

instance
    (c : Condition) :
    Decidable c.IsFilled := by
  unfold IsFilled
  infer_instance

/-
  Two conditions next to each other have OR between them, or
  are both written without an OR that AND would bind tighter
  than.
-/
def IsGuarded
    (c d : Condition) : Prop :=
  d.connective = .or ∨ (c.showsOr = false ∧ d.showsOr = false)

instance
    (c d : Condition) :
    Decidable (IsGuarded c d) := by
  unfold IsGuarded
  infer_instance

/- AND in the tree stands next to no OR without parentheses. -/
def GuardsOr
    (c : Condition) : Prop :=
  ∀ cs ∈ c.groups, cs.IsChain IsGuarded

instance
    (c : Condition) :
    Decidable c.GuardsOr := by
  unfold GuardsOr
  infer_instance

end Condition

end SqlSelect
