import SqlSelect.Text.Basic

/-
  Regular expressions, as far as patterns need them: some
  characters that stand for themselves, points for any one
  character, and points with a star for any run of characters,
  which have to cover a whole value one after the other. A
  character that means something in an expression has a
  backslash in front where it stands for itself.

  Key definitions include:
    * `Regex`
    * `Regex.escape`
    * `Regex.ofText?`
    * `Regex.covers`
    * `Regex.Engine`
    * `Regex.engine`
-/

namespace SqlSelect

namespace Regex

------------------------------------------------------------
-- Atoms
------------------------------------------------------------

/-
  An atom of an expression: a character that stands for
  itself, any one character, or any run of characters.
-/
inductive Atom where
  | same (c : Char)
  | one
  | run
  deriving DecidableEq

end Regex

/- A regular expression, atom by atom. -/
structure Regex where
  atoms : List Regex.Atom
  deriving DecidableEq

namespace Regex

------------------------------------------------------------
-- Writing and Reading
------------------------------------------------------------

/- The characters that mean something in an expression. -/
def metaChars : Text :=
  "\\.+*?()|[]\x7b\x7d^$#&-~".toList

/- The text as an expression that stands for the text. -/
def escape : Text → Text
  | [] => []
  | c :: rest =>
      if c ∈ metaChars then '\\' :: c :: escape rest
      else c :: escape rest

/-
  What an expression begins with: a point stands for a line
  break too, and the value is covered from its start on.
-/
def opening : Text :=
  "(?s)^".toList

/- What it ends with: the value is covered to its end. -/
def closing : Text :=
  "$".toList

/- Read the atoms in front of what an expression ends with. -/
def readAtoms? : Text → Option (List Atom)
  | [] => none
  | [c] => if c = '$' then some [] else none
  | c :: d :: rest =>
      if c = '\\' then
        if d ∈ metaChars then
          (readAtoms? rest).map fun atoms => .same d :: atoms
        else none
      else if c = '.' then
        if d = '*' then
          (readAtoms? rest).map fun atoms => .run :: atoms
        else (readAtoms? (d :: rest)).map fun atoms => .one :: atoms
      else if c ∈ metaChars then none
      else (readAtoms? (d :: rest)).map fun atoms => .same c :: atoms

/- Read an expression that is all of a text. -/
def ofText?
    (t : Text) : Option Regex :=
  if opening.isPrefixOf t then
    (readAtoms? (t.drop opening.length)).map Regex.mk
  else none

------------------------------------------------------------
-- Covering a Value
------------------------------------------------------------

/-
  For each place in a list of answers, whether one of the
  answers from there on is yes.
-/
def fromSome : List Bool → List Bool
  | [] => []
  | answer :: rest =>
      let later := fromSome rest
      (answer || later.headD false) :: later

/-
  For each suffix of the value, the whole value first and the
  empty text last, whether the atoms cover it.
-/
def suffixMatches : List Atom → Text → List Bool
  | [], value => value.map (fun _ => false) ++ [true]
  | .run :: rest, value => fromSome (suffixMatches rest value)
  | .one :: rest, value => (suffixMatches rest value).tail ++ [false]
  | .same p :: rest, value =>
      List.zipWith (fun c covered => p == c && covered) value
        (suffixMatches rest value).tail ++ [false]

/- The expression covers the value. -/
def covers
    (expression : Regex)
    (value : Text) : Bool :=
  (suffixMatches expression.atoms value).headD false

------------------------------------------------------------
-- Engines
------------------------------------------------------------

/-
  What works with regular expressions: it escapes a text,
  reads an expression, and tells whether what it has read
  covers a value.
-/
structure Engine (ρ : Type) where
  escape : Text → Text
  ofText? : Text → Option ρ
  covers : ρ → Text → Bool

/- The engine for the expressions of this file. -/
def engine : Engine Regex :=
  ⟨escape, ofText?, covers⟩

end Regex

end SqlSelect
