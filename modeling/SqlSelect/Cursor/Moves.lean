import SqlSelect.Cursor.Basic

/-
  Moving a cursor step by step. A step that fails leaves the
  cursor where the fault was noticed, and the next step goes
  on from there.

  Key definitions include:
    * `Move`
    * `Finding`
    * `Cursor.move`
    * `Cursor.moves`
-/

namespace SqlSelect

/- A step of a cursor, which may look without moving. -/
inductive Move where
  | next
  | advance
  | skipBlanks
  | passGroup
  | nextTop
  | operand
  | word
  | symbol
  | keyword (keyword : Text)
  | atChar (c : Char)
  deriving DecidableEq

/- What a step has found. -/
inductive Finding where
  | nothing
  | char (c : Option Char)
  | topChar (found : Option (Nat × Char))
  | text (t : Text)
  | symbol (t : Option Text)
  | answer (holds : Bool)
  | failure (e : Error)
  deriving DecidableEq

namespace Finding

/- What a step has found that may fail. -/
def ofOutcome
    {α : Type}
    (found : α → Finding) : Except Error α → Finding
  | .ok a => found a
  | .error e => .failure e

end Finding

namespace Cursor

/- Take a step. -/
def move
    (s : Cursor) : Move → Finding × Cursor
  | .next => (.char s.next?, s)
  | .advance =>
      let (c, after) := s.advance
      (.char c, after)
  | .skipBlanks => (.nothing, s.skipBlanks)
  | .passGroup =>
      let (outcome, after) := s.passGroup
      (.ofOutcome (fun _ => .nothing) outcome, after)
  | .nextTop =>
      let (outcome, after) := s.nextTop
      (.ofOutcome .topChar outcome, after)
  | .operand =>
      let (outcome, after) := s.operand
      (.ofOutcome .text outcome, after)
  | .word =>
      let (word, after) := s.word
      (.text word, after)
  | .symbol =>
      let (symbol, after) := s.symbol?
      (.symbol symbol, after)
  | .keyword keyword =>
      match s.afterKeyword? keyword with
      | some after => (.answer true, after)
      | none => (.answer false, s)
  | .atChar c =>
      let (holds, after) := s.atChar c
      (.answer holds, after)

/-
  Take one step after another: what each of them has found,
  and where it has left the cursor.
-/
def moves
    (s : Cursor) : List Move → List (Finding × Cursor)
  | [] => []
  | step :: steps =>
      let (found, after) := s.move step
      (found, after) :: after.moves steps

end Cursor

end SqlSelect
