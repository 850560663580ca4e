import SqlSelect.Error
import SqlSelect.Nesting.Basic

/-
  A text is cut into pieces at a separator that stands at
  the top level. Separators inside quotes, brackets and
  groups do not count.

  Key definitions include:
    * `Text.marked`
    * `Mark.Is`
    * `Text.splitTop`
-/

namespace SqlSelect

/- The character of the mark is `c`, at the top level. -/
def Mark.Is
    (c : Char)
    (m : Mark) : Prop :=
  m.top = true ∧ m.char = c

instance
    (c : Char)
    (m : Mark) :
    Decidable (m.Is c) := by
  unfold Mark.Is
  infer_instance

namespace Text

/- Mark each character of a text that has to be balanced. -/
def marked
    (t : Text) : Except Error (List Mark) :=
  match marks? t with
  | some marked => .ok marked
  | none => .error (.unbalanced t)

/- Cut a text at each separator at the top level. -/
def splitTop
    (separator : Char)
    (t : Text) : Except Error (List Text) :=
  t.marked.map fun marked =>
    (pieces (fun m => decide (Mark.Is separator m)) marked).map Mark.text

end Text

end SqlSelect
