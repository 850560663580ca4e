import SqlSelect.Cursor.Keywords

/-
  Dividing a text while a cursor moves over it, from one
  character at the top level to the next. On the way an
  account is kept of what has been found and of the byte at
  which something is still open, and what is found is taken
  out of the text by its bytes.

  Key definitions include:
    * `Cursor.overTop`
    * `Cursor.topChars`
    * `Cursor.splitTop`
    * `Cursor.splitAtKeyword`
    * `Cursor.topWords`
-/

namespace SqlSelect

namespace Cursor

/-
  Move on over the characters at the top level to the end of
  the text. Over each of them `take` brings the account
  forward, with the cursor in front of what was passed, the
  one behind the character, the byte and the character; at the
  end `close` settles the account.
-/
def overTop
    {α β : Type}
    (take : α → Cursor → Cursor → Nat × Char → α)
    (close : α → Cursor → Cursor → β)
    (account : α)
    (s : Cursor) : Except Error β :=
  match _ : s.nextTop with
  | (.error e, _) => .error e
  | (.ok none, after) => .ok (close account s after)
  | (.ok (some next), after) =>
      overTop take close (take account s after next) after
  termination_by s.rest.length
  decreasing_by exact nextTop_length_lt ‹_›

/- The characters at the top level, each with its byte. -/
def topChars
    (s : Cursor) : Except Error (List (Nat × Char)) :=
  overTop (fun found _ _ next => found ++ [next])
    (fun found _ _ => found) [] s

------------------------------------------------------------
-- Pieces
------------------------------------------------------------

/-
  The pieces found and the byte at which the next one begins,
  brought forward over a character: a separator ends a piece.
-/
def takePiece
    (separator : Char)
    (account : List Text × Nat)
    (s _after : Cursor)
    (next : Nat × Char) : List Text × Nat :=
  let (pieces, start) := account
  let (byte, c) := next
  if c = separator then
    (pieces ++ [Range.slice ⟨start, byte⟩ s.input], byte + c.utf8Size)
  else (pieces, start)

/- The rest of the text is the last of the pieces. -/
def closePieces
    (account : List Text × Nat)
    (s _after : Cursor) : List Text :=
  let (pieces, start) := account
  pieces ++ [Range.slice ⟨start, Text.byteSize s.input⟩ s.input]

/- Split a text at each separator at the top level. -/
def splitTop
    (separator : Char)
    (t : Text) : Except Error (List Text) :=
  overTop (takePiece separator) closePieces ([], 0) (ofText t)

/- The pieces of a text in front of and behind some ranges. -/
def piecesBetween
    (t : Text)
    (start : Nat) : List Range → List Text
  | [] => [Range.slice ⟨start, Text.byteSize t⟩ t]
  | r :: ranges =>
      Range.slice ⟨start, r.start⟩ t :: piecesBetween t r.stop ranges

/- Split a text at the ranges of a keyword. -/
def splitAtKeyword
    (keyword t : Text) : Except Error (List Text) :=
  (keywordRanges keyword t).map (piecesBetween t 0)

------------------------------------------------------------
-- Words
------------------------------------------------------------

/-
  The byte at which the word has begun that is not at its end,
  if there is one. A word begins where the cursor stood if it
  has moved from there and no blank comes next there.
-/
def wordStart
    (start : Option Nat)
    (s after : Cursor) : Option Nat :=
  let behind :=
    Range.slice ⟨s.position, Text.byteSize s.input⟩ s.input
  if start = none ∧ s.position < after.position ∧
      behind.head?.any isBlank = false then
    some s.position
  else start

/-
  The words found and the start of the one not at its end,
  brought forward over a character: a blank ends a word.
-/
def takeWord
    (account : List Range × Option Nat)
    (s after : Cursor)
    (next : Nat × Char) : List Range × Option Nat :=
  let (words, start) := account
  let (byte, c) := next
  let begun := wordStart start s after
  if isBlank c then
    (words ++ (begun.map fun first => ⟨first, byte⟩).toList, none)
  else (words, begun)

/- The last word goes up to the end of the text. -/
def closeWords
    (account : List Range × Option Nat)
    (s after : Cursor) : List Range :=
  let (words, start) := account
  let begun := wordStart start s after
  words ++
    (begun.map fun first => ⟨first, Text.byteSize s.input⟩).toList

/- The ranges of the words of a text. -/
def topWords
    (t : Text) : Except Error (List Range) :=
  overTop takeWord closeWords ([], none) (ofText t)

end Cursor

end SqlSelect
