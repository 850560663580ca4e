import SqlSelect.Condition.PredicateReading

/-
  Reading conditions. A text is split at OR first and each
  part at AND, so that AND binds tighter than OR. A part is
  a predicate or a condition in parentheses, with NOT in
  front of it any number of times. Parentheses nest up to a
  fixed depth.

  Key definitions include:
    * `Condition.depthLimit`
    * `Condition.stripNots`
    * `Condition.joinAll`
    * `Condition.readPart`
    * `Condition.readAll`
    * `Condition.readNested`
    * `Condition.ofText`
-/

namespace SqlSelect

namespace Condition

/-
  Move over every NOT that is next, and tell whether their
  number is odd.
-/
def afterNots
    (s : Cursor) : Bool × Cursor :=
  match h : s.afterKeyword? "NOT".toList with
  | none => (false, s)
  | some after =>
      have := Cursor.afterKeyword?_length_lt h
      let (negated, rest) := afterNots after
      (!negated, rest)
  termination_by s.rest.length

/-
  The text behind every leading NOT, and whether their number
  is odd.
-/
def stripNots
    (t : Text) : Bool × Text :=
  let (negated, after) := afterNots (Cursor.ofText t)
  (negated, after.rest)

------------------------------------------------------------
-- Joining
------------------------------------------------------------

/- A condition on its own, or a group of several. -/
def joinAll
    (connective : Connective) : List Condition → Condition
  | [only] => only
  | [] => empty
  | first :: rest =>
      .group false .first
        (first.joinedBy .first :: rest.map fun c => c.joinedBy connective)

------------------------------------------------------------
-- Trees
------------------------------------------------------------

/- The number of parentheses that may be open at once. -/
def depthLimit : Nat :=
  64

/-
  Read a part between keywords. `deeper?` reads what stands
  in parentheses, unless they are nested too deep.
-/
def readPart
    (env : Environment)
    (deeper? : Option (Text → Except Error Condition))
    (t : Text) : Except Error Condition :=
  let part := Text.trim t
  if part = [] then .error (.malformed .missingOperand)
  else do
    let (negated, rest) := stripNots part
    let body := Text.trim rest
    match ← Text.enclosed? body with
    | none =>
        (Predicate.ofText env body).map fun predicate =>
          .atom negated .first predicate
    | some inner =>
        if Text.IsBlank inner then
          .error (.malformed (.emptyGroup part))
        else
          match deeper? with
          | none => .error (.malformed .tooDeep)
          | some deeper =>
              (deeper inner).map fun condition =>
                enclosed (condition.negatedIf negated)

/- Read parts with AND between them. -/
def readAnd
    (env : Environment)
    (deeper? : Option (Text → Except Error Condition))
    (t : Text) : Except Error Condition := do
  let parts ← Text.splitAtKeyword "AND".toList t
  return joinAll .and (← parts.mapM (readPart env deeper?))

/- Read parts with OR and AND between them. -/
def readAll
    (env : Environment)
    (deeper? : Option (Text → Except Error Condition))
    (t : Text) : Except Error Condition := do
  let segments ← Text.splitAtKeyword "OR".toList t
  return joinAll .or (← segments.mapM (readAnd env deeper?))

/- Read a condition with at most so many open parentheses. -/
def readNested
    (env : Environment) : Nat → Text → Except Error Condition
  | 0 => readAll env none
  | allowance + 1 => readAll env (some (readNested env allowance))

/- Read a condition. A blank text always holds. -/
def ofText
    (env : Environment)
    (t : Text) : Except Error Condition :=
  if Text.IsBlank t then .ok empty
  else readNested env depthLimit t

end Condition

end SqlSelect
