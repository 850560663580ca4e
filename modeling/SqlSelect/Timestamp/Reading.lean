import SqlSelect.Text.Blank
import SqlSelect.Timestamp.Basic

/-
  Reading days and times. A reader takes its part from the
  start of a text and gives what is left. Blanks may stand in
  front of every number, and between the day and the time,
  but not in front of a separator.

  Key definitions include:
    * `Timestamp.Reader`
    * `Timestamp.readDigits`
    * `Timestamp.readNumber`
    * `Timestamp.readYear`
    * `Timestamp.readFraction`
    * `Timestamp.readDay?`
    * `Timestamp.readMoment?`
-/

namespace SqlSelect

namespace Timestamp

/- A reader of a part of a text. -/
abbrev Reader
    (α : Type) : Type :=
  Text → Option (α × Text)

------------------------------------------------------------
-- Parts
------------------------------------------------------------

/- The digits at the start of the text, at most `most`. -/
def readDigits
    (most : Nat) : Reader Text :=
  fun t =>
    let found := (t.take most).takeWhile Char.isDigit
    if found = [] then none else some (found, t.drop found.length)

/- A number of one or two digits. -/
def readNumber : Reader Nat :=
  fun t =>
    (readDigits 2 (Text.trimStart t)).map fun (found, rest) =>
      (digitsValue found, rest)

/-
  A year of at most four digits, or of any number of digits
  behind a sign.
-/
def readYear : Reader Int :=
  fun t =>
    match Text.trimStart t with
    | '-' :: rest =>
        (readDigits rest.length rest).map fun (found, rest) =>
          (-Int.ofNat (digitsValue found), rest)
    | '+' :: rest =>
        (readDigits rest.length rest).map fun (found, rest) =>
          (Int.ofNat (digitsValue found), rest)
    | start =>
        (readDigits 4 start).map fun (found, rest) =>
          (Int.ofNat (digitsValue found), rest)

/- The character `c`. -/
def readMark
    (c : Char) : Reader Unit :=
  fun t => if t.head? = some c then some ((), t.tail) else none

/-
  Nanoseconds behind a point, or nothing. Digits behind the
  ninth are dropped.
-/
def readFraction : Reader Nat :=
  fun t =>
    match t with
    | '.' :: rest =>
        (readDigits 9 rest).map fun (found, after) =>
          ( digitsValue found * Nat.pow 10 (9 - found.length)
          , after.dropWhile Char.isDigit )
    | rest => some (0, rest)

------------------------------------------------------------
-- Days and Times
------------------------------------------------------------

/- The day at midnight, if it exists. -/
def midnight?
    (year : Int)
    (month day : Nat) : Option Timestamp :=
  let t : Timestamp := ⟨year, month, day, 0, 0, 0, 0⟩
  if t.Exists then some t else none

/- A year, a month and a day with a separator between them. -/
def dayParts
    (separator : Char) : Reader (Int × Nat × Nat) :=
  fun t => do
    let (y, t) ← readYear t
    let ((), t) ← readMark separator t
    let (m, t) ← readNumber t
    let ((), t) ← readMark separator t
    let (d, t) ← readNumber t
    return ((y, m, d), t)

/- An hour, a minute and a second, with places or without. -/
def timeParts : Reader (Nat × Nat × Nat × Nat) :=
  fun t => do
    let (h, t) ← readNumber t
    let ((), t) ← readMark ':' t
    let (m, t) ← readNumber t
    let ((), t) ← readMark ':' t
    let (s, t) ← readNumber t
    let (places, t) ← readFraction t
    return ((h, m, s, places), t)

/- A day that takes the whole text, at midnight. -/
def readDay?
    (separator : Char)
    (t : Text) : Option Timestamp := do
  let ((y, m, d), rest) ← dayParts separator t
  if rest = [] then midnight? y m d else none

/- A day and a time that take the whole text. -/
def readMoment?
    (separator : Char)
    (t : Text) : Option Timestamp := do
  let ((y, m, d), t) ← dayParts separator t
  let ((hour, minute, second, places), rest) ←
    timeParts (Text.trimStart t)
  let moment : Timestamp := ⟨y, m, d, hour, minute, second, places⟩
  if rest = [] ∧ moment.Exists then some moment else none

end Timestamp

end SqlSelect
