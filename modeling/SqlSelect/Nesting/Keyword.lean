import SqlSelect.Nesting.Pieces
import SqlSelect.Range

/-
  A keyword occurs in a text where its words are spelled one
  after the other with blanks between them, in any letter
  case, from a character at the top level on. In front of it
  is a blank, a closing parenthesis or nothing, and behind it
  a blank, an opening parenthesis or nothing. Occurrences do
  not overlap: of two that do, the first one counts.

  Key definitions include:
    * `followingLength?`
    * `keywordLength?`
    * `occurrenceLength?`
    * `Cut`
    * `Cut.ofMarks`
    * `Text.cutAtKeyword`
    * `Text.splitAtKeyword`
    * `Text.keywordRanges`
    * `Text.firstKeyword`
-/

namespace SqlSelect

------------------------------------------------------------
-- Spelling
------------------------------------------------------------

/-
  Number of characters that the words take at the start of
  the text, with blanks in front of every word.
-/
def followingLength? : List Text → Text → Option Nat
  | [], _ => some 0
  | word :: words, t =>
      let gap := (t.takeWhile isBlank).length
      let afterGap := t.drop gap
      if gap = 0 then none
      else if Text.startsWord word afterGap then
        (followingLength? words (afterGap.drop word.length)).map
          fun length => gap + word.length + length
      else none

/-
  Number of characters that the words of a keyword take at
  the start of the text. A keyword without words is nowhere.
-/
def keywordLength? : List Text → Text → Option Nat
  | [], _ => none
  | word :: words, t =>
      if Text.startsWord word t then
        (followingLength? words (t.drop word.length)).map
          fun length => word.length + length
      else none

/- A keyword takes at least one character of a text. -/
theorem keywordLength?_pos
    {word : Text}
    {words : List Text}
    {t : Text}
    {length : Nat}
    (hWord : word ≠ [])
    (h : keywordLength? (word :: words) t = some length) :
    0 < length ∧ 0 < t.length := by
  have hWordLength : 0 < word.length := List.length_pos_iff.2 hWord
  simp only [keywordLength?, Option.ite_none_right_eq_some,
    Option.map_eq_some_iff] at h
  obtain ⟨hStart, following, -, rfl⟩ := h
  refine ⟨by omega, ?_⟩
  have hLength := congrArg List.length (eq_of_beq hStart)
  simp only [Text.foldCase, List.length_map, List.length_take] at hLength
  omega

/- A keyword may stand after the character. -/
def EndsBefore
    (previous : Option Char) : Prop :=
  previous.all (fun c => isBlank c || c == ')') = true

instance
    (previous : Option Char) :
    Decidable (EndsBefore previous) := by
  unfold EndsBefore
  infer_instance

/- A keyword may stand in front of the text. -/
def EndsAfter
    (t : Text) : Prop :=
  t.head?.all (fun c => isBlank c || c == '(') = true

instance
    (t : Text) :
    Decidable (EndsAfter t) := by
  unfold EndsAfter
  infer_instance

/-
  Number of characters that the keyword takes at the start
  of the text, if it ends there at the end of a word.
-/
def delimitedLength?
    (words : List Text)
    (t : Text) : Option Nat :=
  (keywordLength? words t).filter fun length =>
    decide (EndsAfter (t.drop length))

/-
  Number of characters of the occurrence that begins with
  the first of the marks.
-/
def occurrenceLength?
    (words : List Text)
    (previous : Option Char) : List Mark → Option Nat
  | [] => none
  | m :: rest =>
      if m.top = true ∧ EndsBefore previous then
        delimitedLength? words (Mark.text (m :: rest))
      else none

------------------------------------------------------------
-- Cuts
------------------------------------------------------------

/-
  A text cut at the occurrences of a keyword: what is in
  front of the first, and each of them with what follows it.
-/
structure Cut where
  head : Text
  tail : List (Text × Text)
  deriving DecidableEq

namespace Cut

/- Put text in front of a cut. -/
def prepend
    (t : Text)
    (cut : Cut) : Cut :=
  { cut with head := t ++ cut.head }

/- Put an occurrence of the keyword in front of a cut. -/
def occurrence
    (keyword : Text)
    (cut : Cut) : Cut :=
  ⟨[], (keyword, cut.head) :: cut.tail⟩

/-
  Cut at the occurrences of the keyword with the words given,
  behind a character or at the start of the text.
-/
def ofMarks
    (words : List Text)
    (previous : Option Char)
    (marked : List Mark) : Cut :=
  match marked with
  | [] => ⟨[], []⟩
  | m :: rest =>
      match occurrenceLength? words previous (m :: rest) with
      | none => prepend [m.char] (ofMarks words (some m.char) rest)
      | some length =>
          let keyword := m.char :: Mark.text (rest.take (length - 1))
          occurrence keyword
            (ofMarks words keyword.getLast? (rest.drop (length - 1)))
  termination_by marked.length

/- The text that was cut. -/
def text
    (cut : Cut) : Text :=
  cut.head ++ cut.tail.flatMap fun (keyword, after) => keyword ++ after

@[simp]
theorem text_prepend
    (t : Text)
    (cut : Cut) :
    (prepend t cut).text = t ++ cut.text := by
  simp [prepend, text]

@[simp]
theorem text_occurrence
    (keyword : Text)
    (cut : Cut) :
    (occurrence keyword cut).text = keyword ++ cut.text := by
  simp [occurrence, text]

/- Cutting a text at a keyword loses nothing of it. -/
theorem text_ofMarks
    (words : List Text)
    (previous : Option Char)
    (marked : List Mark) :
    (ofMarks words previous marked).text = Mark.text marked := by
  fun_induction ofMarks words previous marked with
  | case1 => rfl
  | case2 previous m rest h ih => simp [ih, Mark.text]
  | case3 previous m rest length h keyword ih =>
      rw [text_occurrence, ih]
      simp [keyword, Mark.text]

/- The text between the occurrences. -/
def pieces
    (cut : Cut) : List Text :=
  cut.head :: cut.tail.map Prod.snd

/-
  The ranges of the keywords, when the first of them begins
  at the byte given.
-/
def rangesFrom
    (start : Nat) : List (Text × Text) → List Range
  | [] => []
  | (keyword, after) :: rest =>
      let stop := start + Text.byteSize keyword
      ⟨start, stop⟩ :: rangesFrom (stop + Text.byteSize after) rest

/- The ranges of the occurrences. -/
def ranges
    (cut : Cut) : List Range :=
  rangesFrom (Text.byteSize cut.head) cut.tail

/- The text behind the first occurrence. -/
def afterFirst?
    (cut : Cut) : Option Text :=
  match cut.tail with
  | [] => none
  | (_, after) :: rest => some (text ⟨after, rest⟩)

end Cut

------------------------------------------------------------
-- Keywords in a text
------------------------------------------------------------

namespace Text

/- Cut a text at the occurrences of a keyword. -/
def cutAtKeyword
    (keyword t : Text) : Except Error Cut :=
  t.marked.map fun marked => Cut.ofMarks keyword.words none marked

/- The pieces of a text between occurrences of a keyword. -/
def splitAtKeyword
    (keyword t : Text) : Except Error (List Text) :=
  (cutAtKeyword keyword t).map Cut.pieces

/- The ranges at which a keyword occurs. -/
def keywordRanges
    (keyword t : Text) : Except Error (List Range) :=
  (cutAtKeyword keyword t).map Cut.ranges

/- The range at which a keyword occurs first. -/
def firstKeyword
    (keyword t : Text) : Except Error (Option Range) :=
  (keywordRanges keyword t).map List.head?

end Text

end SqlSelect
