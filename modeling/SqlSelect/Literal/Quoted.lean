import SqlSelect.Text.Basic

/-
  String literals: a value between single quotes, with the
  quotes inside it doubled.

  Key definitions include:
    * `Quoted.quote`
    * `Quoted.unquote?`
    * `Quoted.strip`
-/

namespace SqlSelect

namespace Quoted

/- The value as a string literal. -/
def quote
    (value : Text) : Text :=
  '\'' :: (Text.double '\'' value ++ ['\''])

/-
  Write every pair of quotes once. A quote that stands alone
  is refused.
-/
def unescape? : Text → Option Text
  | [] => some []
  | [c] => if c = '\'' then none else some [c]
  | c :: d :: rest =>
      if c = '\'' then
        if d = '\'' then (unescape? rest).map fun value => c :: value
        else none
      else (unescape? (d :: rest)).map fun value => c :: value

/- The text is enclosed in single quotes. -/
def IsEnclosed
    (t : Text) : Prop :=
  2 ≤ t.length ∧ t.head? = some '\'' ∧ t.getLast? = some '\''

instance
    (t : Text) :
    Decidable (IsEnclosed t) := by
  unfold IsEnclosed
  infer_instance

/- The value of a text that is exactly one string literal. -/
def unquote?
    (t : Text) : Option Text :=
  if IsEnclosed t then unescape? (Text.inner t) else none

/-
  The value of a string literal, or the text itself. Of a
  text in quotes that is no literal only the outer quotes are
  taken away and the pairs inside written once.
-/
def strip
    (t : Text) : Text :=
  if IsEnclosed t then
    (unescape? (Text.inner t)).getD (Text.undouble '\'' (Text.inner t))
  else t

end Quoted

end SqlSelect
