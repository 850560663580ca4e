import SqlSelect.Nesting.Pieces
import SqlSelect.Range

/-
  The words of a text are its longest runs without a blank
  at the top level. Quoted sections, brackets and groups
  belong whole to the word that they stand in.

  Key definitions include:
    * `Mark.IsGap`
    * `Words`
    * `Words.ofMarks`
    * `Words.ranges`
    * `Words.through`
    * `Text.topWords`
-/

namespace SqlSelect

/- The mark is of a blank at the top level. -/
def Mark.IsGap
    (m : Mark) : Prop :=
  m.top = true ∧ isBlank m.char = true

instance
    (m : Mark) :
    Decidable m.IsGap := by
  unfold Mark.IsGap
  infer_instance

/-
  A text in words: each word with the gap in front of it,
  and the gap at the end.
-/
structure Words where
  list : List (Text × Text)
  trailing : Text
  deriving DecidableEq

namespace Words

/- Put a character of a gap in front. -/
def pushGap
    (c : Char)
    (w : Words) : Words :=
  match w.list with
  | [] => ⟨[], c :: w.trailing⟩
  | (gap, word) :: rest => ⟨(c :: gap, word) :: rest, w.trailing⟩

/- Put a character of a word in front. -/
def pushWord
    (c : Char)
    (w : Words) : Words :=
  match w.list with
  | ([], word) :: rest => ⟨([], c :: word) :: rest, w.trailing⟩
  | list => ⟨([], [c]) :: list, w.trailing⟩

/- Find the words among the marks. -/
def ofMarks : List Mark → Words
  | [] => ⟨[], []⟩
  | m :: rest =>
      if m.IsGap then pushGap m.char (ofMarks rest)
      else pushWord m.char (ofMarks rest)

/- The words without the gaps. -/
def words
    (w : Words) : List Text :=
  w.list.map Prod.snd

/- The text that was divided. -/
def text
    (w : Words) : Text :=
  (w.list.flatMap fun (gap, word) => gap ++ word) ++ w.trailing

theorem text_pushGap
    (c : Char)
    (w : Words) :
    (pushGap c w).text = c :: w.text := by
  obtain ⟨list, trailing⟩ := w
  cases list <;> simp [pushGap, text]

theorem text_pushWord
    (c : Char)
    (w : Words) :
    (pushWord c w).text = c :: w.text := by
  obtain ⟨list, trailing⟩ := w
  rcases list with _ | ⟨⟨_ | ⟨d, gap⟩, word⟩, rest⟩ <;>
    simp [pushWord, text]

/- Dividing a text into words loses nothing of it. -/
theorem text_ofMarks
    (marked : List Mark) :
    (ofMarks marked).text = Mark.text marked := by
  induction marked with
  | nil => rfl
  | cons m rest ih =>
      by_cases h : m.IsGap
      · simp [ofMarks, h, text_pushGap, ih, Mark.text]
      · simp [ofMarks, h, text_pushWord, ih, Mark.text]

/-
  The ranges of the words, when the first gap begins at the
  byte given.
-/
def rangesFrom
    (start : Nat) : List (Text × Text) → List Range
  | [] => []
  | (gap, word) :: rest =>
      let first := start + Text.byteSize gap
      let stop := first + Text.byteSize word
      ⟨first, stop⟩ :: rangesFrom stop rest

/- The ranges of the words. -/
def ranges
    (w : Words) : List Range :=
  rangesFrom 0 w.list

/- The text from its start through the first `count` words. -/
def through
    (count : Nat)
    (w : Words) : Text :=
  (w.list.take count).flatMap fun (gap, word) => gap ++ word

end Words

namespace Text

/- Divide a text into words. -/
def topWords
    (t : Text) : Except Error Words :=
  t.marked.map Words.ofMarks

end Text

end SqlSelect
