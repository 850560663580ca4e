import SqlSelect.Cursor.Basic

/-
  The ranges of a keyword, as a cursor finds them that moves
  from one character at the top level to the next. At each of
  these characters the text itself is looked at, in front of
  the byte and behind it, whatever the cursor has passed.

  Key definitions include:
    * `Text.MayBegin`
    * `Text.MayStop`
    * `Text.keywordStop?`
    * `Text.rangeAt?`
    * `Cursor.keywordRangesFrom`
    * `Cursor.keywordRanges`
-/

namespace SqlSelect

------------------------------------------------------------
-- Looks at the Text
------------------------------------------------------------

namespace Text

/- A keyword may begin at the byte, by what is in front of it. -/
def MayBegin
    (t : Text)
    (byte : Nat) : Prop :=
  EndsBefore (Range.slice ⟨0, byte⟩ t).getLast?

instance
    (t : Text)
    (byte : Nat) :
    Decidable (MayBegin t byte) := by
  unfold MayBegin
  infer_instance

/- A keyword may stop at the byte, by what is behind it. -/
def MayStop
    (t : Text)
    (byte : Nat) : Prop :=
  EndsAfter (Range.slice ⟨byte, byteSize t⟩ t)

instance
    (t : Text)
    (byte : Nat) :
    Decidable (MayStop t byte) := by
  unfold MayStop
  infer_instance

/- The byte at which the keyword stops that begins at a byte. -/
def keywordStop?
    (keyword t : Text)
    (start : Nat) : Option Nat :=
  let behind := Range.slice ⟨start, byteSize t⟩ t
  (keywordLength? keyword.words behind).map fun length =>
    start + byteSize (behind.take length)

/-
  The range of the keyword that begins with a character of the
  text, if the last of the ranges found does not go on there.
-/
def rangeAt?
    (keyword t : Text)
    (found : List Range)
    (start : Nat)
    (c : Char) : Option Range :=
  match (trimStart keyword).head? with
  | none => none
  | some first =>
      if (found.getLast?.any fun r => decide (start < r.stop)) = true then
        none
      else if ¬ SameWord [c] [first] ∨ ¬ MayBegin t start then none
      else
        match keywordStop? keyword t start with
        | none => none
        | some stop =>
            if MayStop t stop then some ⟨start, stop⟩ else none

end Text

------------------------------------------------------------
-- The Walk
------------------------------------------------------------

namespace Cursor

/- Behind a character at the top level there is less of the text. -/
theorem nextTop_length_lt
    {s after : Cursor}
    {found : Nat × Char}
    (h : s.nextTop = (.ok (some found), after)) :
    after.rest.length < s.rest.length := by
  have hSuffix :=
    Stop.atTop_rest_suffix (fun _ => true) none s.depth s.rest
  cases hReached :
      (Stop.atTop (fun _ => true) none s.depth s.rest).reached with
  | false => simp [nextTop, moveTo, hReached] at h
  | true =>
      simp only [nextTop, moveTo, hReached, if_true, advance, next?,
        Prod.mk.injEq, Except.ok.injEq, Option.map_eq_some_iff] at h
      obtain ⟨⟨c, hNext, -⟩, rfl⟩ := h
      have hLength := hSuffix.length_le
      have hPos := List.length_pos_of_mem (List.mem_of_mem_head? hNext)
      simp only [List.length_tail]
      omega

/-
  The ranges of the keyword behind the cursor, together with
  those that have been found in front of it.
-/
def keywordRangesFrom
    (keyword : Text)
    (found : List Range)
    (s : Cursor) : Except Error (List Range) :=
  match _ : s.nextTop with
  | (.error e, _) => .error e
  | (.ok none, _) => .ok found
  | (.ok (some (start, c)), after) =>
      keywordRangesFrom keyword
        (found ++ (Text.rangeAt? keyword s.input found start c).toList)
        after
  termination_by s.rest.length
  decreasing_by exact nextTop_length_lt ‹_›

/- The ranges of the keyword in a text. -/
def keywordRanges
    (keyword t : Text) : Except Error (List Range) :=
  keywordRangesFrom keyword [] (ofText t)

end Cursor

end SqlSelect
