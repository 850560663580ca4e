import SqlSelect.Text.Basic

/-
  Ranges of a text, counted in UTF-8 bytes.

  Key definitions include:
    * `Range`
    * `Range.length`
    * `Range.IsEmpty`
    * `Range.Within`
    * `Range.slice`
-/

namespace SqlSelect

/- The bytes from `start` on and before `stop`. -/
structure Range where
  start : Nat
  stop : Nat
  deriving DecidableEq

namespace Range

/- Number of bytes in the range. -/
def length
    (r : Range) : Nat :=
  r.stop - r.start

/- The range holds no byte. -/
def IsEmpty
    (r : Range) : Prop :=
  r.start = r.stop

instance
    (r : Range) :
    Decidable r.IsEmpty := by
  unfold IsEmpty
  infer_instance

/-
  The range lies in the text, and both of its ends lie
  between two characters.
-/
def Within
    (r : Range)
    (t : Text) : Prop :=
  ∃ before covered after : Text,
    t = before ++ covered ++ after ∧
    r.start = Text.byteSize before ∧
    r.stop = Text.byteSize (before ++ covered)

/- The characters that begin at the bytes of the range. -/
def slice
    (r : Range) : Text → Text
  | [] => []
  | c :: rest =>
      let next : Range :=
        ⟨r.start - c.utf8Size, r.stop - c.utf8Size⟩
      if r.stop = 0 then []
      else if r.start = 0 then c :: next.slice rest
      else next.slice rest

end Range

end SqlSelect
