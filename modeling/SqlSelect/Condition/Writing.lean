import SqlSelect.Condition.Basic
import SqlSelect.Condition.ValueList
import SqlSelect.Name

/-
  Conditions as they are written in a query.

  Key definitions include:
    * `Predicate.written`
    * `Condition.Written`
    * `Condition.writing`
    * `Condition.written`
-/

namespace SqlSelect

------------------------------------------------------------
-- Predicates
------------------------------------------------------------

namespace Predicate

/- The values of an IN list. -/
def listValues?
    (p : Predicate) : Option (List Text) :=
  if p.comparison = .inList then p.rightText.map ValueList.decode
  else none

/-
  The operand on the right: a field, a value, or a text as a
  string.
-/
def rightOperand
    (p : Predicate) : Text :=
  match p.rightField, p.value with
  | some field, _ => Name.written field
  | none, some value => value.written
  | none, none => Quoted.quote (p.rightText.getD [])

/- The predicate as it is written. -/
def written
    (p : Predicate) : Text :=
  match p.comparison with
  | .parameter =>
      "PARAMETER(".toList ++ Quoted.quote p.left ++ ") = ".toList
        ++ Quoted.quote (p.rightText.getD [])
  | .isNull =>
      Name.written p.left ++ ' ' :: p.comparison.spelling
  | .isNotNull =>
      Name.written p.left ++ ' ' :: p.comparison.spelling
  | .inList =>
      let values := ValueList.decode (p.rightText.getD [])
      Name.written p.left ++ " IN (".toList
        ++ Text.join ", ".toList (values.map Quoted.quote) ++ [')']
  | comparison =>
      Name.written p.left ++ ' ' :: comparison.spelling
        ++ ' ' :: p.rightOperand

end Predicate

------------------------------------------------------------
-- Trees
------------------------------------------------------------

namespace Condition

/-
  A condition in writing: the text without NOT in front of
  it, and what decides how the text is put together with
  others.
-/
structure Written where
  negated : Bool
  isAtom : Bool
  connective : Connective
  body : Text
  deriving DecidableEq

namespace Written

/- The text between parentheses. -/
def inParentheses
    (t : Text) : Text :=
  '(' :: (t ++ [')'])

/-
  The text with NOT in front of it where it is negated, and
  with parentheses behind NOT unless it is a predicate.
-/
def text
    (w : Written) : Text :=
  if w.negated = false then w.body
  else if w.isAtom then "NOT ".toList ++ w.body
  else "NOT ".toList ++ inParentheses w.body

/- The keyword in front of a condition that is not the first. -/
def lead
    (w : Written) : Text :=
  if w.connective = .or then " OR ".toList else " AND ".toList

/-
  The text of a group: nothing for none, parentheses around
  one, and keywords between several.
-/
def groupText : List Written → Text
  | [] => []
  | [only] =>
      if only.negated then "NOT ".toList ++ inParentheses only.body
      else inParentheses only.body
  | first :: rest =>
      first.text ++ rest.flatMap fun w => w.lead ++ w.text

end Written

mutual

/- The condition in writing. -/
def writing : Condition → Written
  | .atom negated connective predicate =>
      ⟨negated, true, connective, predicate.written⟩
  | .group negated connective children =>
      ⟨negated, false, connective, Written.groupText (writings children)⟩

/- Some conditions in writing. -/
def writings : List Condition → List Written
  | [] => []
  | child :: rest => writing child :: writings rest

end

/- The condition as it is written in a query. -/
def written
    (c : Condition) : Text :=
  c.writing.text

end Condition

end SqlSelect
