import SqlSelect.Text.Blank

/-
  How deep a character of a text lies. Quoted sections run
  from a quote to the next quote of the same kind, bracketed
  ones from `[` to the next `]`, and groups between
  parentheses may hold both and further groups. A doubled
  quote inside a quoted section closes it and opens it again,
  which comes to the same as an escaped quote: neither of the
  two is at the top level, and the section goes on after them.

  Main statements: a walk over a text is a walk over its
  first part and then over its second (`run_append`), and
  a text is balanced when the walk from outside ends outside.

  Key definitions include:
    * `closerOf?`
    * `IsDelimiter`
    * `Nesting`
    * `Nesting.step`
    * `Nesting.run`
    * `Nesting.IsTop`
    * `Mark`
    * `Nesting.marks?`
    * `Text.marks?`
    * `Text.Balanced`
-/

namespace SqlSelect

------------------------------------------------------------
-- Delimiters
------------------------------------------------------------

/-
  The character that ends the section which the given one
  opens.
-/
def closerOf?
    (c : Char) : Option Char :=
  if c = '\'' ∨ c = '"' ∨ c = '\x60' then some c
  else if c = '[' then some ']'
  else none

/-
  The character opens or closes something when it stands
  outside of quotes and brackets.
-/
def IsDelimiter
    (c : Char) : Prop :=
  (closerOf? c).isSome = true ∨ c = '(' ∨ c = ')'

instance
    (c : Char) :
    Decidable (IsDelimiter c) := by
  unfold IsDelimiter
  infer_instance

------------------------------------------------------------
-- The walk
------------------------------------------------------------

/-
  Where a walk over a text has got to: the character that
  ends the quoted or bracketed section it is in, if it is in
  one, and the number of groups still open.
-/
structure Nesting where
  closer : Option Char
  depth : Nat
  deriving DecidableEq

namespace Nesting

/- Outside of every section and group. -/
def outside : Nesting :=
  ⟨none, 0⟩

/-
  Walk over one character. There is no way over a closing
  parenthesis when no group is open.
-/
def step
    (n : Nesting)
    (c : Char) : Option Nesting :=
  match n.closer with
  | some q =>
      some (if c = q then ⟨none, n.depth⟩ else n)
  | none =>
      match closerOf? c with
      | some q => some ⟨some q, n.depth⟩
      | none =>
          if c = '(' then some ⟨none, n.depth + 1⟩
          else if c = ')' then
            match n.depth with
            | 0 => none
            | depth + 1 => some ⟨none, depth⟩
          else some n

/- Walk over a text. -/
def run
    (n : Nesting) : Text → Option Nesting
  | [] => some n
  | c :: rest => (n.step c).bind fun next => next.run rest

@[simp]
theorem run_nil
    (n : Nesting) :
    n.run [] = some n := rfl

theorem run_cons
    (n : Nesting)
    (c : Char)
    (t : Text) :
    n.run (c :: t) = (n.step c).bind fun next => next.run t := rfl

/- A walk over two texts is a walk over one and the other. -/
theorem run_append
    (n : Nesting)
    (s t : Text) :
    n.run (s ++ t) = (n.run s).bind fun next => next.run t := by
  induction s generalizing n with
  | nil => rfl
  | cons c s ih =>
      cases h : n.step c with
      | none => simp [run, h]
      | some next => simp [run, h, ih]

/-
  A character is at the top level when the walk meets it
  outside of every section and group and it delimits none.
-/
def IsTop
    (n : Nesting)
    (c : Char) : Prop :=
  n = outside ∧ ¬ IsDelimiter c

instance
    (n : Nesting)
    (c : Char) :
    Decidable (n.IsTop c) := by
  unfold IsTop
  infer_instance

end Nesting

------------------------------------------------------------
-- Marks
------------------------------------------------------------

/- A character of a text, and whether it is at the top level. -/
structure Mark where
  char : Char
  top : Bool
  deriving DecidableEq

/-
  Mark each character of a text. The marks are missing when
  the walk is stuck or ends inside a section or group.
-/
def Nesting.marks?
    (n : Nesting) : Text → Option (List Mark)
  | [] => if n = outside then some [] else none
  | c :: rest =>
      (n.step c).bind fun next =>
        (next.marks? rest).map fun marked =>
          ⟨c, decide (n.IsTop c)⟩ :: marked

/- The characters that carry the marks. -/
def Mark.text
    (marked : List Mark) : Text :=
  marked.map Mark.char

namespace Text

/- Mark each character of a whole text. -/
def marks?
    (t : Text) : Option (List Mark) :=
  Nesting.outside.marks? t

/-
  A text is balanced when every section and group in it is
  closed and no group is closed that is not open.
-/
def Balanced
    (t : Text) : Prop :=
  Nesting.outside.run t = some Nesting.outside

instance
    (t : Text) :
    Decidable (Balanced t) := by
  unfold Balanced
  infer_instance

end Text

/- Marking keeps the characters. -/
theorem Nesting.text_of_marks?
    {n : Nesting}
    {t : Text}
    {marked : List Mark}
    (h : n.marks? t = some marked) :
    Mark.text marked = t := by
  induction t generalizing n marked with
  | nil =>
      simp only [marks?, Option.ite_none_right_eq_some, Option.some.injEq] at h
      simp [← h.2, Mark.text]
  | cons c t ih =>
      simp only [marks?, Option.bind_eq_some_iff, Option.map_eq_some_iff] at h
      obtain ⟨next, -, rest, hRest, rfl⟩ := h
      simpa [Mark.text] using ih hRest

end SqlSelect
