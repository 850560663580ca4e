import SqlSelect.Nesting.Keyword

/-
  The section of a text that a keyword opens runs from the
  keyword to the first of some closing keywords behind it, or
  to the end of the text.

  Key definitions include:
    * `Text.untilKeyword`
    * `Text.untilKeywords`
    * `Text.section?`
-/

namespace SqlSelect

namespace Text

/- The text in front of the first occurrence of a keyword. -/
def untilKeyword
    (keyword t : Text) : Except Error Text :=
  (cutAtKeyword keyword t).map Cut.head

/-
  The text in front of the first occurrence of any of the
  keywords.
-/
def untilKeywords
    (t : Text) : List Text → Except Error Text
  | [] => .ok t
  | keyword :: keywords => do
      let head ← untilKeyword keyword t
      let heads ← untilKeywords t keywords
      return if head.length ≤ heads.length then head else heads

/- The trimmed text, unless nothing is left of it. -/
def nonblank?
    (t : Text) : Option Text :=
  if IsBlank t then none else some (trim t)

/-
  The trimmed text between the first occurrence of `opening`
  and the first of the `closing` keywords behind it. There is
  none without the opening keyword or with blanks only.
-/
def section?
    (opening : Text)
    (closing : List Text)
    (t : Text) : Except Error (Option Text) := do
  let cut ← cutAtKeyword opening t
  match cut.afterFirst? with
  | none => return none
  | some after =>
      return nonblank? (← untilKeywords after closing)

end Text

end SqlSelect
