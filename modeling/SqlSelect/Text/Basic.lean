/-
  Text is a list of characters. This file holds the few
  operations on it that the rest of the library shares: its
  size in UTF-8 bytes, comparison up to ASCII letter case,
  and the cutting and joining of pieces.

  Key definitions include:
    * `Text`
    * `Text.byteSize`
    * `Text.foldCase`
    * `Text.SameWord`
    * `Text.startsWord`
    * `Text.undouble`
    * `Text.double`
    * `Text.join`
    * `Text.cutAt?`
    * `Text.pieces`
    * `Text.inner`
-/

namespace SqlSelect

/- Text of a query, character by character. -/
abbrev Text :=
  List Char

namespace Text

------------------------------------------------------------
-- Size
------------------------------------------------------------

/- Number of bytes that the text takes in UTF-8. -/
def byteSize : Text → Nat
  | [] => 0
  | c :: t => c.utf8Size + byteSize t

@[simp]
theorem byteSize_nil :
    byteSize [] = 0 := rfl

@[simp]
theorem byteSize_cons
    (c : Char)
    (t : Text) :
    byteSize (c :: t) = c.utf8Size + byteSize t := rfl

@[simp]
theorem byteSize_append
    (s t : Text) :
    byteSize (s ++ t) = byteSize s + byteSize t := by
  induction s with
  | nil => simp
  | cons c s ih => simp [ih, Nat.add_assoc]

------------------------------------------------------------
-- Letter case
------------------------------------------------------------

/- The text with its ASCII capitals made small. -/
def foldCase
    (t : Text) : Text :=
  t.map Char.toLower

/-
  Two texts are the same word when they differ only in the
  case of ASCII letters.
-/
def SameWord
    (s t : Text) : Prop :=
  foldCase s = foldCase t

instance
    (s t : Text) :
    Decidable (SameWord s t) := by
  unfold SameWord
  infer_instance

/- The text begins with `word`, whatever the letter case. -/
def startsWord
    (word t : Text) : Bool :=
  foldCase (t.take word.length) == foldCase word

------------------------------------------------------------
-- Doubled characters
------------------------------------------------------------

/- Write every `q` twice. -/
def double
    (q : Char) : Text → Text
  | [] => []
  | c :: rest =>
      if c = q then q :: q :: double q rest
      else c :: double q rest

/-
  Write every pair of neighbouring `q` once, from left to
  right. A `q` without a neighbour stays.
-/
def undouble
    (q : Char) : Text → Text
  | [] => []
  | [c] => [c]
  | c :: d :: rest =>
      if c = q ∧ d = q then q :: undouble q rest
      else c :: undouble q (d :: rest)

------------------------------------------------------------
-- Pieces
------------------------------------------------------------

/- The pieces with `separator` between each two of them. -/
def join
    (separator : Text) : List Text → Text
  | [] => []
  | [piece] => piece
  | piece :: next :: rest =>
      piece ++ separator ++ join separator (next :: rest)

/- The text before and after the first `c`. -/
def cutAt?
    (c : Char) : Text → Option (Text × Text)
  | [] => none
  | d :: rest =>
      if d = c then some ([], rest)
      else (cutAt? c rest).map fun (before, after) => (d :: before, after)

/- Put an element in front of the first of some pieces. -/
def pushFront
    {α : Type}
    (a : α) : List (List α) → List (List α)
  | [] => [[a]]
  | piece :: rest => (a :: piece) :: rest

/-
  Cut a list at each element that `isCut` picks. The elements
  picked are dropped, so there is one piece more than cuts.
-/
def pieces
    {α : Type}
    (isCut : α → Bool) : List α → List (List α)
  | [] => [[]]
  | a :: rest =>
      if isCut a then [] :: pieces isCut rest
      else pushFront a (pieces isCut rest)

/- The text without its first and its last character. -/
def inner
    (t : Text) : Text :=
  t.tail.dropLast

end Text

end SqlSelect
