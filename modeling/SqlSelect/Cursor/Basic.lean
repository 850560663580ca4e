import SqlSelect.Nesting.Keyword
import SqlSelect.Text.Letter

/-
  A cursor stands between two characters of a text and moves
  forward over them. It knows how many groups are open where
  it stands. Where a text is not balanced an operation fails,
  and the cursor stays where the fault was noticed.

  Key definitions include:
    * `Cursor`
    * `Cursor.position`
    * `Cursor.since`
    * `Stop`
    * `Stop.atTop`
    * `Stop.afterGroup`
    * `Cursor.nextTop`
    * `Cursor.passGroup`
    * `Cursor.group`
    * `Cursor.operand`
    * `Cursor.symbol?`
    * `Cursor.word`
    * `Cursor.afterKeyword?`
    * `Text.enclosed?`
    * `Text.call?`
-/

namespace SqlSelect

------------------------------------------------------------
-- Where a Walk Stops
------------------------------------------------------------

/-
  Where a walk over the rest of a text stops: whether it got
  to what it looked for, how many groups are open there, and
  the text that is left.
-/
structure Stop where
  reached : Bool
  depth : Nat
  rest : Text
  deriving DecidableEq

namespace Stop

/-
  Walk to the first character at the top level that `halt`
  picks, or to the end of the text. The walk begins in the
  section that `closer` ends, if any, with `depth` groups
  open.
-/
def atTop
    (halt : Char → Bool) : Option Char → Nat → Text → Stop
  | none, 0, [] => ⟨true, 0, []⟩
  | _, depth, [] => ⟨false, depth, []⟩
  | some q, depth, c :: rest =>
      atTop halt (if c = q then none else some q) depth rest
  | none, depth, c :: rest =>
      match closerOf? c with
      | some q => atTop halt (some q) depth rest
      | none =>
          if c = '(' then atTop halt none (depth + 1) rest
          else if c = ')' then
            match depth with
            | 0 => ⟨false, 0, c :: rest⟩
            | fewer + 1 => atTop halt none fewer rest
          else if depth = 0 ∧ halt c = true then
            ⟨true, 0, c :: rest⟩
          else atTop halt none depth rest

/-
  Walk to the end of the first group that opens and closes,
  with `depth` groups of it open already.
-/
def afterGroup : Option Char → Nat → Text → Stop
  | _, depth, [] => ⟨false, depth, []⟩
  | some q, depth, c :: rest =>
      afterGroup (if c = q then none else some q) depth rest
  | none, depth, c :: rest =>
      match closerOf? c with
      | some q => afterGroup (some q) depth rest
      | none =>
          if c = '(' then afterGroup none (depth + 1) rest
          else if c = ')' then
            match depth with
            | 0 => ⟨false, 0, c :: rest⟩
            | 1 => ⟨true, 0, rest⟩
            | fewer + 2 => afterGroup none (fewer + 1) rest
          else afterGroup none depth rest

/- The text left is the end of the text walked over. -/
theorem atTop_rest_suffix
    (halt : Char → Bool)
    (closer : Option Char)
    (depth : Nat)
    (t : Text) :
    (atTop halt closer depth t).rest <:+ t := by
  induction t generalizing closer depth with
  | nil =>
      unfold atTop
      split <;> simp_all
  | cons c t ih =>
      have hLess (closer : Option Char) (depth : Nat) :
          (atTop halt closer depth t).rest <:+ c :: t :=
        (ih closer depth).trans (List.suffix_cons c t)
      unfold atTop
      split
      · contradiction
      · contradiction
      · simp_all
      · repeat' split
        all_goals simp_all

/- The text left is the end of the text walked over. -/
theorem afterGroup_rest_suffix
    (closer : Option Char)
    (depth : Nat)
    (t : Text) :
    (afterGroup closer depth t).rest <:+ t := by
  induction t generalizing closer depth with
  | nil => simp [afterGroup]
  | cons c t ih =>
      have hLess (closer : Option Char) (depth : Nat) :
          (afterGroup closer depth t).rest <:+ c :: t :=
        (ih closer depth).trans (List.suffix_cons c t)
      unfold afterGroup
      split
      · contradiction
      · simp_all
      · repeat' split
        all_goals simp_all

end Stop

------------------------------------------------------------
-- Cursors
------------------------------------------------------------

/-
  A place in a text, given by the text from there on, and
  the number of groups open there.
-/
structure Cursor where
  input : Text
  rest : Text
  depth : Nat
  deriving DecidableEq

namespace Cursor

/- The start of a text. -/
def ofText
    (t : Text) : Cursor :=
  ⟨t, t, 0⟩

/- Number of bytes in front of the cursor. -/
def position
    (s : Cursor) : Nat :=
  Text.byteSize s.input - Text.byteSize s.rest

/- The text between an earlier place and the cursor. -/
def since
    (earlier s : Cursor) : Text :=
  earlier.rest.take (earlier.rest.length - s.rest.length)

/- The text is not balanced, as the cursor has found. -/
def unbalanced
    (s : Cursor) : Error :=
  .unbalanced s.input

/- The next character. -/
def next?
    (s : Cursor) : Option Char :=
  s.rest.head?

/- Move over the next character. -/
def advance
    (s : Cursor) : Option Char × Cursor :=
  (s.next?, { s with rest := s.rest.tail })

/- Move over the characters that `p` picks. -/
def skipWhile
    (p : Char → Bool)
    (s : Cursor) : Cursor :=
  { s with rest := s.rest.dropWhile p }

/- Move over blanks. -/
def skipBlanks
    (s : Cursor) : Cursor :=
  s.skipWhile isBlank

/- Move to where a walk has stopped. -/
def moveTo
    (s : Cursor)
    (stop : Stop) : Except Error Unit × Cursor :=
  ( if stop.reached then .ok () else .error s.unbalanced
  , { s with rest := stop.rest, depth := stop.depth } )

------------------------------------------------------------
-- Walks
------------------------------------------------------------

/-
  Move to the end of the first group that opens and closes
  from here on.
-/
def passGroup
    (s : Cursor) : Except Error Unit × Cursor :=
  let stop := Stop.afterGroup none 0 s.rest
  s.moveTo { stop with depth := s.depth + stop.depth }

/-
  Move over the next character at the top level, and tell
  the byte at which it begins.
-/
def nextTop
    (s : Cursor) : Except Error (Option (Nat × Char)) × Cursor :=
  let (outcome, before) :=
    s.moveTo (Stop.atTop (fun _ => true) none s.depth s.rest)
  match outcome with
  | .error e => (.error e, before)
  | .ok () =>
      let (c, after) := before.advance
      (.ok (c.map fun c => (before.position, c)), after)

/- The character belongs to a comparison symbol. -/
def isSymbol
    (c : Char) : Bool :=
  c == '=' || c == '<' || c == '>' || c == '!'

/-
  Read an operand: blanks, and then the text up to a blank
  or comparison symbol that stands in no section or group.
-/
def operand
    (s : Cursor) : Except Error Text × Cursor :=
  let start := s.skipBlanks
  let stop :=
    Stop.atTop (fun c => isBlank c || isSymbol c) none 0 start.rest
  let (outcome, after) :=
    start.moveTo { stop with depth := start.depth + stop.depth }
  (outcome.map fun _ => since start after, after)

/- Read a comparison symbol, if one is next. -/
def symbol?
    (s : Cursor) : Option Text × Cursor :=
  let after := s.skipWhile isSymbol
  let symbol := since s after
  (if symbol.isEmpty then none else some symbol, after)

/- Read a word of letters, digits and underscores. -/
def word
    (s : Cursor) : Text × Cursor :=
  let after := s.skipWhile isNameChar
  (since s after, after)

/-
  Move over blanks and a keyword, if the keyword is next and
  ends at the end of a word.
-/
def afterKeyword?
    (keyword : Text)
    (s : Cursor) : Option Cursor :=
  let start := s.skipBlanks
  (delimitedLength? keyword.words start.rest).map fun length =>
    { start with rest := start.rest.drop length }

/- Behind a keyword there is less of the text. -/
theorem afterKeyword?_length_lt
    {keyword : Text}
    {s after : Cursor}
    (h : s.afterKeyword? keyword = some after) :
    after.rest.length < s.rest.length := by
  simp only [afterKeyword?, delimitedLength?, Option.map_eq_some_iff,
    Option.filter_eq_some_iff] at h
  obtain ⟨length, ⟨hLength, -⟩, rfl⟩ := h
  cases hWords : keyword.words with
  | nil => simp [hWords, keywordLength?] at hLength
  | cons word words =>
      rw [hWords] at hLength
      have hWord : word ≠ [] :=
        Text.ne_nil_of_mem_words (t := keyword) (by simp [hWords])
      have hPos := keywordLength?_pos hWord hLength
      have hBlanks :
          s.skipBlanks.rest.length ≤ s.rest.length :=
        (List.dropWhile_sublist isBlank).length_le
      simp only [List.length_drop]
      omega

/- Move over blanks, and tell whether `c` is next. -/
def atChar
    (c : Char)
    (s : Cursor) : Bool × Cursor :=
  let after := s.skipBlanks
  (after.next? == some c, after)

/-
  Read a group, with the cursor in front of its opening
  parenthesis: the text between its parentheses.
-/
def group
    (s : Cursor) : Except Error (Text × Cursor) :=
  let (outcome, after) := s.passGroup
  outcome.map fun _ => (Text.inner (since s after), after)

end Cursor

------------------------------------------------------------
-- Enclosed Texts
------------------------------------------------------------

namespace Text

/-
  The text between the parentheses, if the whole text is one
  group and blanks after it.
-/
def enclosed?
    (t : Text) : Except Error (Option Text) :=
  if t.head? = some '(' then
    (Cursor.ofText t).group.map fun (interior, after) =>
      if IsBlank after.rest then some interior else none
  else .ok none

/-
  The name and the interior, if the whole text is a name and
  a group, apart from blanks behind either of them.
-/
def call?
    (t : Text) : Except Error (Option (Text × Text)) :=
  let (name, afterName) := (Cursor.ofText t).word
  let (opens, start) := afterName.atChar '('
  if name.isEmpty = false ∧ opens = true then
    start.group.map fun (interior, after) =>
      if IsBlank after.rest then some (name, interior) else none
  else .ok none

end Text

end SqlSelect
