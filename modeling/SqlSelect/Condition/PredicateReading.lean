import SqlSelect.Condition.Basic
import SqlSelect.Condition.ValueList
import SqlSelect.Environment
import SqlSelect.Literal.Reading
import SqlSelect.Nesting.Words

/-
  Reading predicates: an operand, a comparison, and what the
  comparison calls for on its right.

  Key definitions include:
    * `Predicate.readParameter`
    * `Predicate.readNullTest`
    * `Predicate.readList`
    * `Predicate.readRight`
    * `Predicate.readComparison`
    * `Predicate.ofText`
-/

namespace SqlSelect

namespace Predicate

------------------------------------------------------------
-- Parameters
------------------------------------------------------------

/- The value of a parameter, with quotes or without. -/
def parameterValue
    (t : Text) : Except Error Text :=
  let value := Quoted.strip (Text.trim t)
  if Text.IsBlank value then .error .emptyParameterValue
  else .ok value

/- The name of a parameter, with quotes or without. -/
def parameterName
    (t : Text) : Except Error Text :=
  let name := Name.unquote (Quoted.strip (Text.trim t))
  if Text.IsBlank name then .error .emptyParameterName
  else .ok name

/- Move over the sign between a parameter and its value. -/
def skipParameterSign
    (predicate : Text)
    (s : Cursor) : Except Error Cursor :=
  match s.skipBlanks.symbol? with
  | (none, _) => .error (.malformed (.missingParameterSign predicate))
  | (some symbol, after) =>
      if symbol = ['='] then .ok after
      else .error (.unknownOperator symbol)

/-
  Read a parameter in parentheses, a sign and a value, with
  the cursor in front of the parentheses.
-/
def readParameter
    (predicate : Text)
    (s : Cursor) : Except Error Predicate := do
  let (interior, s) ← s.group
  let name ← parameterName interior
  let s ← skipParameterSign predicate s
  let value ← parameterValue s.rest
  .ok { bare name .parameter with rightText := some value }

------------------------------------------------------------
-- Tests and Lists
------------------------------------------------------------

/- Nothing but blanks may follow. -/
def nothingAfter
    (predicate : Text)
    (s : Cursor) : Except Error Unit :=
  let rest := Text.trim s.rest
  if rest = [] then .ok ()
  else .error (.malformed (.textAfterEnd rest predicate))

/- Read the test for a missing value, behind its first word. -/
def readNullTest
    (predicate left : Text)
    (s : Cursor) : Except Error Predicate :=
  let (comparison, s) :=
    match s.afterKeyword? "NOT".toList with
    | some after => (Comparison.isNotNull, after)
    | none => (Comparison.isNull, s)
  match s.afterKeyword? "NULL".toList with
  | none =>
      let found := (Text.firstWord? s.rest).getD []
      .error (.unknownOperator ("IS ".toList ++ found))
  | some after =>
      (nothingAfter predicate after).map fun _ => bare left comparison

/- The values between the parentheses of a list. -/
def listValues
    (predicate interior : Text) : Except Error (List Text) :=
  if Text.IsBlank interior then
    .error (.malformed (.emptyList predicate))
  else
    (Text.splitTop ',' interior).map fun pieces =>
      pieces.map fun piece => Quoted.strip (Text.trim piece)

/- Read a list of values in parentheses. -/
def readList
    (predicate left : Text)
    (s : Cursor) : Except Error Predicate :=
  let (opens, s) := s.atChar '('
  if opens = false then
    .error (.malformed (.missingList predicate))
  else do
    let (interior, s) ← s.group
    let () ← nothingAfter predicate s
    let values ← listValues predicate interior
    .ok
      { bare left .inList with
        rightText := some (ValueList.encode values) }

------------------------------------------------------------
-- Comparisons
------------------------------------------------------------

/-
  Read the right side of a comparison: a literal, or a field
  that takes one word.
-/
def readRight
    (env : Environment)
    (predicate left : Text)
    (comparison : Comparison)
    (rest : Text) : Except Error Predicate :=
  let right := Text.trim rest
  if right = [] then
    .error (.malformed (.missingRightOperand predicate))
  else
    match Literal.ofText? right with
    | some value =>
        .ok
          { bare left comparison with
            rightText := some value.shown
            value := some value }
    | none => do
        let words ← Text.topWords right
        if 1 < words.words.length then
          .error (.malformed (.textAfterOperand comparison predicate))
        else
          (env.fieldName right).map fun field =>
            { bare left comparison with rightField := some field }

/- Read a comparison that is a word, and its right side. -/
def readWordComparison
    (env : Environment)
    (predicate left : Text)
    (s : Cursor) : Except Error Predicate :=
  let (word, s) := s.word
  if Text.SameWord word "IS".toList then readNullTest predicate left s
  else if Text.SameWord word "IN".toList then readList predicate left s
  else if word = [] then
    match Text.firstWord? s.rest with
    | some found => .error (.unknownOperator found)
    | none => .error (.malformed (.missingComparator predicate))
  else
    match Comparison.ofWord? word with
    | none => .error (.unknownOperator word)
    | some comparison =>
        readRight env predicate left comparison s.rest

/-
  Read a comparison, behind the operand on the left, and its
  right side.
-/
def readComparison
    (env : Environment)
    (predicate left : Text)
    (s : Cursor) : Except Error Predicate :=
  match s.symbol? with
  | (none, s) => readWordComparison env predicate left s
  | (some symbol, s) =>
      match Comparison.ofSymbol? symbol with
      | none => .error (.unknownOperator symbol)
      | some comparison =>
          readRight env predicate left comparison s.rest

/-
  The cursor in front of the parentheses, if the text begins
  like a parameter.
-/
def parameterStart?
    (t : Text) : Option Cursor :=
  let (word, s) := (Cursor.ofText t).word
  let (opens, s) := s.atChar '('
  if Text.SameWord word "PARAMETER".toList ∧ opens = true then some s
  else none

/- Read a trimmed text as a predicate. -/
def ofText
    (env : Environment)
    (t : Text) : Except Error Predicate :=
  if t = [] then .error (.malformed .notWithoutCondition)
  else
    match parameterStart? t with
    | some s => readParameter t s
    | none => do
        let (outcome, s) := (Cursor.ofText t).operand
        let operand ← outcome
        if operand = [] then
          .error (.malformed (.missingLeftOperand t))
        else
          let left ← env.fieldName operand
          readComparison env t left s.skipBlanks

end Predicate

end SqlSelect
