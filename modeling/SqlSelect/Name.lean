import SqlSelect.Cursor.Basic

/-
  Names of fields, tables and aliases. A name that is not
  plain is written in double quotes, with the quotes inside
  it doubled; back quotes are read as well. A qualified name
  is two names with a point between them.

  Key definitions include:
    * `Name.quoted`
    * `Name.written`
    * `Name.unquote`
    * `Name.qualified`
-/

namespace SqlSelect

namespace Name

/- The name between double quotes. -/
def quoted
    (name : Text) : Text :=
  '"' :: (Text.double '"' name ++ ['"'])

/- The name as it is written, in quotes where it needs them. -/
def written
    (name : Text) : Text :=
  if Text.IsPlainName name then name else quoted name

/-
  The text begins and ends with `q`, and these are two
  characters.
-/
def IsEnclosed
    (q : Char)
    (t : Text) : Prop :=
  2 ≤ t.length ∧ t.head? = some q ∧ t.getLast? = some q

instance
    (q : Char)
    (t : Text) :
    Decidable (IsEnclosed q t) := by
  unfold IsEnclosed
  infer_instance

/-
  The name that a text stands for: the trimmed text, without
  one layer of double or of back quotes.
-/
def unquote
    (t : Text) : Text :=
  let trimmed := Text.trim t
  if IsEnclosed '"' trimmed then
    Text.undouble '"' (Text.inner trimmed)
  else if IsEnclosed '\x60' trimmed then
    Text.undouble '\x60' (Text.inner trimmed)
  else trimmed

/-
  The qualifier and the name in a text: the names on both
  sides of the first point at the top level. Without such a
  point there is no qualifier.
-/
def qualified
    (t : Text) : Except Error (Option Text × Text) :=
  let start := Cursor.ofText (Text.trim t)
  let (outcome, point) :=
    start.moveTo (Stop.atTop (fun c => c == '.') none 0 start.rest)
  outcome.map fun _ =>
    match point.rest with
    | [] => (none, unquote start.rest)
    | _ :: name => (some (unquote (Cursor.since start point)), unquote name)

end Name

end SqlSelect
