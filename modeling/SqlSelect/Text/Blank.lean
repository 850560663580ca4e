import SqlSelect.Text.Basic

/-
  Blank characters are those with the Unicode property
  White_Space. Around them this file defines trimming and
  the words of a text.

  Key definitions include:
    * `isBlank`
    * `Text.trimStart`
    * `Text.trimEnd`
    * `Text.trim`
    * `Text.IsBlank`
    * `Text.words`
    * `Text.firstWord?`
-/

namespace SqlSelect

------------------------------------------------------------
-- The property White_Space
------------------------------------------------------------

/- The code points with the property, as closed ranges. -/
def blankRanges : List (Nat × Nat) :=
  [ (0x0009, 0x000D)
  , (0x0020, 0x0020)
  , (0x0085, 0x0085)
  , (0x00A0, 0x00A0)
  , (0x1680, 0x1680)
  , (0x2000, 0x200A)
  , (0x2028, 0x2029)
  , (0x202F, 0x202F)
  , (0x205F, 0x205F)
  , (0x3000, 0x3000) ]

/- The character has the property White_Space. -/
def isBlank
    (c : Char) : Bool :=
  blankRanges.any fun (first, last) =>
    first ≤ c.toNat && c.toNat ≤ last

namespace Text

------------------------------------------------------------
-- Trimming
------------------------------------------------------------

/- Drop the blanks in front. -/
def trimStart
    (t : Text) : Text :=
  t.dropWhile isBlank

/- Drop the blanks at the end. -/
def trimEnd : Text → Text
  | [] => []
  | c :: rest =>
      match trimEnd rest with
      | [] => if isBlank c then [] else [c]
      | d :: kept => c :: d :: kept

/- Drop the blanks at both ends. -/
def trim
    (t : Text) : Text :=
  trimEnd (trimStart t)

/- The text has no character but blanks. -/
def IsBlank
    (t : Text) : Prop :=
  t.all isBlank = true

instance
    (t : Text) :
    Decidable (IsBlank t) := by
  unfold IsBlank
  infer_instance

------------------------------------------------------------
-- Words
------------------------------------------------------------

/- The longest runs without a blank, in order. -/
def words
    (t : Text) : List Text :=
  (pieces isBlank t).filter fun piece => !piece.isEmpty

/- The words of a text are not empty. -/
theorem ne_nil_of_mem_words
    {word t : Text}
    (h : word ∈ words t) :
    word ≠ [] := by
  have := (List.mem_filter.1 h).2
  intro hNil
  simp [hNil] at this

/- The first of the words. -/
def firstWord?
    (t : Text) : Option Text :=
  (words t).head?

end Text

end SqlSelect
