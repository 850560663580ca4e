import SqlSelect.Nesting.Pieces
import SqlSelect.Number.Numeral

/-
  The limit of a query: how many rows it gives, and how many
  it skips before.

  Key definitions include:
    * `Limit`
    * `Limit.ofNumbers?`
    * `Limit.ofText`
-/

namespace SqlSelect

/- A number of rows, behind a number of rows that are skipped. -/
structure Limit where
  count : Nat
  offset : Nat
  deriving DecidableEq

namespace Limit

/- The limit of one number or two. -/
def ofNumbers? : List Nat → Option Limit
  | [count] => some ⟨count, 0⟩
  | [offset, count] => some ⟨count, offset⟩
  | _ => none

/- Read a limit: the count, or the offset and the count. -/
def ofText
    (clause : Text) : Except Error Limit := do
  let pieces ← Text.splitTop ',' clause
  let numbers := pieces.mapM fun piece => naturalOfText? (Text.trim piece)
  match numbers.bind ofNumbers? with
  | some limit => .ok limit
  | none => .error (.malformed (.badLimit clause))

end Limit

end SqlSelect
