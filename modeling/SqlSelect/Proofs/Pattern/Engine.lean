import Mathlib.Data.List.Forall2
import SqlSelect.Regex

/-
  What a regular expression covers. The atoms of an expression
  divide a value among them, each of them covering a run of
  it, and what an engine has to keep to is said in the same
  way of the pieces that an expression is written from: texts
  that are escaped, points, and points with a star.

  Main statements:
    * `Text.IsDivided`
    * `Regex.covers_iff_isDivided`
    * `Regex.Piece`
    * `Regex.Engine.Lawful`
    * `Regex.ofText?_written`
    * `Regex.lawful_engine`
-/

namespace SqlSelect

------------------------------------------------------------
-- Divisions of a Value
------------------------------------------------------------

namespace Text

/-
  The value is divided among the parts: it is a row of runs,
  one for each part, and each part covers its run.
-/
def IsDivided
    {α : Type}
    (Covers : α → Text → Prop)
    (parts : List α)
    (value : Text) : Prop :=
  ∃ runs : List Text,
    List.Forall₂ Covers parts runs ∧ runs.flatten = value

variable {α : Type}
variable {Covers : α → Text → Prop}
variable {a : α}
variable {parts parts' : List α}
variable {value : Text}

/- Without a part there is nothing to cover. -/
theorem isDivided_nil_iff :
    IsDivided Covers [] value ↔ value = [] := by
  constructor
  · rintro ⟨runs, hRuns, rfl⟩
    cases hRuns
    rfl
  · rintro rfl
    exact ⟨[], .nil, rfl⟩

/- The first part covers the start of the value. -/
theorem isDivided_cons_iff :
    IsDivided Covers (a :: parts) value ↔
      ∃ run rest,
        value = run ++ rest ∧ Covers a run ∧
          IsDivided Covers parts rest := by
  constructor
  · rintro ⟨runs, hRuns, rfl⟩
    cases hRuns with
    | cons hRun hRest => exact ⟨_, _, rfl, hRun, _, hRest, rfl⟩
  · rintro ⟨run, rest, rfl, hRun, runs, hRest, rfl⟩
    exact ⟨run :: runs, .cons hRun hRest, rfl⟩

/- Two rows of parts divide what is two values. -/
theorem isDivided_append_iff :
    IsDivided Covers (parts ++ parts') value ↔
      ∃ front rest,
        value = front ++ rest ∧ IsDivided Covers parts front ∧
          IsDivided Covers parts' rest := by
  induction parts generalizing value with
  | nil => simp [isDivided_nil_iff]
  | cons a parts ih =>
      simp only [List.cons_append, isDivided_cons_iff, ih]
      constructor
      · rintro ⟨run, _, rfl, hRun, front, rest, rfl, hFront, hRest⟩
        exact
          ⟨run ++ front, rest, (List.append_assoc ..).symm,
            ⟨run, front, rfl, hRun, hFront⟩, hRest⟩
      · rintro ⟨_, rest, rfl, ⟨run, front, rfl, hRun, hFront⟩, hRest⟩
        exact
          ⟨run, front ++ rest, List.append_assoc .., hRun, front, rest,
            rfl, hFront, hRest⟩

end Text

------------------------------------------------------------
-- Atoms
------------------------------------------------------------

namespace Regex

/- The run of a value that an atom covers. -/
def Atom.Covers : Atom → Text → Prop
  | .same c, s => s = [c]
  | .one, s => s.length = 1
  | .run, _ => True

theorem length_fromSome
    (answers : List Bool) :
    (fromSome answers).length = answers.length := by
  induction answers with
  | nil => rfl
  | cons answer answers ih => simp [fromSome, ih]

theorem tail_fromSome
    (answers : List Bool) :
    (fromSome answers).tail = fromSome answers.tail := by
  cases answers <;> rfl

variable {atoms : List Atom}
variable {c p : Char}
variable {value : Text}

/- There is an answer for each suffix. -/
theorem length_suffixMatches
    (atoms : List Atom)
    (value : Text) :
    (suffixMatches atoms value).length = value.length + 1 := by
  induction atoms with
  | nil => simp [suffixMatches]
  | cons atom atoms ih =>
      cases atom with
      | same p => simp [suffixMatches, ih]
      | one => simp [suffixMatches, ih]
      | run => simp [suffixMatches, length_fromSome, ih]

theorem exists_suffixMatches_eq
    (atoms : List Atom)
    (value : Text) :
    ∃ rest, suffixMatches atoms value = covers ⟨atoms⟩ value :: rest := by
  have hLength := length_suffixMatches atoms value
  rw [covers]
  cases hAnswers : suffixMatches atoms value with
  | nil => simp [hAnswers] at hLength
  | cons answer rest => exact ⟨rest, rfl⟩

/- The answers for a suffix are the last of the answers. -/
theorem suffixMatches_cons
    (atoms : List Atom)
    (c : Char)
    (value : Text) :
    suffixMatches atoms (c :: value) =
      covers ⟨atoms⟩ (c :: value) :: suffixMatches atoms value := by
  have hTail :
      (suffixMatches atoms (c :: value)).tail =
        suffixMatches atoms value := by
    induction atoms with
    | nil => rfl
    | cons atom atoms ih =>
        rcases exists_suffixMatches_eq atoms value with ⟨rest, hRest⟩
        cases atom with
        | same p => simp [suffixMatches, ih, hRest]
        | one => simp [suffixMatches, ih, hRest]
        | run => rw [suffixMatches, suffixMatches, tail_fromSome, ih]
  rcases exists_suffixMatches_eq atoms (c :: value) with ⟨rest, hRest⟩
  rw [hRest, List.tail_cons] at hTail
  rw [hRest, hTail]

theorem suffixMatches_nil
    (atoms : List Atom) :
    suffixMatches atoms [] = [covers ⟨atoms⟩ []] := by
  have hLength := length_suffixMatches atoms []
  rcases exists_suffixMatches_eq atoms [] with ⟨rest, hRest⟩
  rw [hRest] at hLength ⊢
  simpa using hLength

theorem covers_same_nil :
    covers ⟨.same p :: atoms⟩ [] = false := rfl

theorem covers_same_cons :
    covers ⟨.same p :: atoms⟩ (c :: value) =
      (p == c && covers ⟨atoms⟩ value) := by
  rcases exists_suffixMatches_eq atoms value with ⟨rest, hRest⟩
  rw [covers, suffixMatches, suffixMatches_cons, List.tail_cons, hRest]
  rfl

theorem covers_one_nil :
    covers ⟨.one :: atoms⟩ [] = false := by
  rw [covers, suffixMatches, suffixMatches_nil]
  rfl

theorem covers_one_cons :
    covers ⟨.one :: atoms⟩ (c :: value) = covers ⟨atoms⟩ value := by
  rcases exists_suffixMatches_eq atoms value with ⟨rest, hRest⟩
  rw [covers, suffixMatches, suffixMatches_cons, List.tail_cons, hRest]
  rfl

theorem covers_run_nil :
    covers ⟨.run :: atoms⟩ [] = covers ⟨atoms⟩ [] := by
  rw [covers, suffixMatches, suffixMatches_nil]
  exact Bool.or_false _

/- A run covers nothing, or one character more than another. -/
theorem covers_run_cons :
    covers ⟨.run :: atoms⟩ (c :: value) =
      (covers ⟨atoms⟩ (c :: value) || covers ⟨.run :: atoms⟩ value) := by
  rw [covers, suffixMatches, suffixMatches_cons]
  rfl

/- The divisions of a value go by the same equations. -/
theorem isDivided_one_cons_iff :
    Text.IsDivided Atom.Covers (.one :: atoms) (c :: value) ↔
      Text.IsDivided Atom.Covers atoms value := by
  rw [Text.isDivided_cons_iff]
  constructor
  · rintro ⟨run, rest, hSplit, hRun, hRest⟩
    rcases List.length_eq_one_iff.mp hRun with ⟨d, rfl⟩
    rwa [(List.cons.inj hSplit).2]
  · intro hRest
    exact ⟨[c], value, rfl, rfl, hRest⟩

theorem not_isDivided_one_nil :
    ¬ Text.IsDivided Atom.Covers (.one :: atoms) [] := by
  rw [Text.isDivided_cons_iff]
  rintro ⟨run, rest, hNil, hRun, -⟩
  rw [(List.nil_eq_append_iff.mp hNil).1] at hRun
  cases hRun

theorem isDivided_run_nil_iff :
    Text.IsDivided Atom.Covers (.run :: atoms) [] ↔
      Text.IsDivided Atom.Covers atoms [] := by
  rw [Text.isDivided_cons_iff]
  constructor
  · rintro ⟨run, rest, hNil, -, hRest⟩
    rwa [(List.nil_eq_append_iff.mp hNil).2] at hRest
  · intro hRest
    exact ⟨[], [], rfl, trivial, hRest⟩

theorem isDivided_run_cons_iff :
    Text.IsDivided Atom.Covers (.run :: atoms) (c :: value) ↔
      Text.IsDivided Atom.Covers atoms (c :: value) ∨
        Text.IsDivided Atom.Covers (.run :: atoms) value := by
  rw [Text.isDivided_cons_iff, Text.isDivided_cons_iff]
  constructor
  · rintro ⟨run, rest, hSplit, -, hRest⟩
    cases run with
    | nil =>
        rw [List.nil_append] at hSplit
        exact .inl (hSplit ▸ hRest)
    | cons d run =>
        exact
          .inr ⟨run, rest, (List.cons.inj hSplit).2, trivial, hRest⟩
  · rintro (hRest | ⟨run, rest, rfl, -, hRest⟩)
    · exact ⟨[], c :: value, rfl, trivial, hRest⟩
    · exact ⟨c :: run, rest, rfl, trivial, hRest⟩

/-
  An expression covers a value that its atoms divide among
  them, and no other. By induction on the atoms, and on the
  value where a run stands in front.
-/
theorem covers_iff_isDivided
    (atoms : List Atom)
    (value : Text) :
    covers ⟨atoms⟩ value = true ↔
      Text.IsDivided Atom.Covers atoms value := by
  induction atoms generalizing value with
  | nil =>
      rw [Text.isDivided_nil_iff]
      cases value <;> simp [covers, suffixMatches]
  | cons atom atoms ih =>
      cases atom with
      | same p =>
          rw [Text.isDivided_cons_iff]
          cases value with
          | nil => simp [covers_same_nil, Atom.Covers]
          | cons c value =>
              simp [covers_same_cons, Atom.Covers, ih, eq_comm (a := p)]
      | one =>
          cases value with
          | nil =>
              rw [covers_one_nil]
              exact iff_of_false Bool.false_ne_true not_isDivided_one_nil
          | cons c value =>
              rw [covers_one_cons, ih, isDivided_one_cons_iff]
      | run =>
          induction value with
          | nil => rw [covers_run_nil, ih, isDivided_run_nil_iff]
          | cons c value ihValue =>
              rw [covers_run_cons, Bool.or_eq_true, ih, ihValue,
                isDivided_run_cons_iff]

------------------------------------------------------------
-- Pieces
------------------------------------------------------------

/-
  A piece that an expression is written from: a text that
  stands for itself, a point, or a point with a star.
-/
inductive Piece where
  | exact (t : Text)
  | one
  | run

namespace Piece

/- The piece as it is written. -/
def written
    (escape : Text → Text) : Piece → Text
  | .exact t => escape t
  | .one => ".".toList
  | .run => ".*".toList

/- The run of a value that a piece covers. -/
def Covers : Piece → Text → Prop
  | .exact t, s => s = t
  | .one, s => s.length = 1
  | .run, _ => True

/- The atoms of a piece. -/
def toAtoms : Piece → List Atom
  | .exact t => t.map Atom.same
  | .one => [.one]
  | .run => [.run]

end Piece

/- The expression of some pieces. -/
def written
    (escape : Text → Text)
    (pieces : List Piece) : Text :=
  opening ++ pieces.flatMap (Piece.written escape) ++ closing

/-
  The engine does what engines for regular expressions do. It
  reads the expression of some pieces, if it is not too large
  for it, and what is read of the pieces covers the values
  that they divide among them.
-/
structure Engine.Lawful
    {ρ : Type}
    (engine : Engine ρ)
    (Fits : Text → Prop) : Prop where
  reads :
    ∀ pieces,
      Fits (written engine.escape pieces) →
        (engine.ofText? (written engine.escape pieces)).isSome = true
  covers_iff :
    ∀ pieces expression value,
      engine.ofText? (written engine.escape pieces) = some expression →
        (engine.covers expression value = true ↔
          Text.IsDivided Piece.Covers pieces value)

------------------------------------------------------------
-- Reading What Is Written
------------------------------------------------------------

variable {t u : Text}

theorem readAtoms?_point
    (hSome : u ≠ [])
    (hHead : u.head? ≠ some '*') :
    readAtoms? ('.' :: u) =
      (readAtoms? u).map fun atoms => .one :: atoms := by
  cases u with
  | nil => exact absurd rfl hSome
  | cons d u =>
      have hStar : d ≠ '*' := fun hEq => hHead (congrArg some hEq)
      rw [readAtoms?, if_neg (by decide), if_pos rfl, if_neg hStar]

theorem readAtoms?_star
    (u : Text) :
    readAtoms? ('.' :: '*' :: u) =
      (readAtoms? u).map fun atoms => .run :: atoms := by
  rw [readAtoms?, if_neg (by decide), if_pos rfl, if_pos rfl]

/- What is escaped is read as it was, by induction on it. -/
theorem readAtoms?_escape_append
    (t : Text)
    (hSome : u ≠ []) :
    readAtoms? (escape t ++ u) =
      (readAtoms? u).map fun atoms => t.map Atom.same ++ atoms := by
  induction t with
  | nil => simp [escape]
  | cons c t ih =>
      have hIh :
          ((readAtoms? u).map fun atoms => t.map Atom.same ++ atoms).map
              (fun atoms => Atom.same c :: atoms) =
            (readAtoms? u).map fun atoms =>
              (c :: t).map Atom.same ++ atoms := by
        rw [Option.map_map]
        rfl
      by_cases hMeta : c ∈ metaChars
      · rw [escape, if_pos hMeta, List.cons_append, List.cons_append,
          readAtoms?, if_pos rfl, if_pos hMeta, ih, hIh]
      · have hBackslash : c ≠ '\\' := by
          rintro rfl
          exact hMeta (by decide)
        have hPoint : c ≠ '.' := by
          rintro rfl
          exact hMeta (by decide)
        rcases List.exists_cons_of_ne_nil
            (List.append_ne_nil_of_right_ne_nil (escape t) hSome)
          with ⟨d, rest, hRest⟩
        rw [escape, if_neg hMeta, List.cons_append, hRest, readAtoms?,
          if_neg hBackslash, if_neg hPoint, if_neg hMeta, ← hRest, ih,
          hIh]

/- No escaped text begins with a star. -/
theorem head?_escape_append
    (t : Text)
    (hHead : u.head? ≠ some '*') :
    (escape t ++ u).head? ≠ some '*' := by
  cases t with
  | nil => exact hHead
  | cons c t =>
      by_cases hMeta : c ∈ metaChars
      · simp [escape, hMeta]
      · have hStar : c ≠ '*' := by
          rintro rfl
          exact hMeta (by decide)
        simpa [escape, hMeta] using hStar

/- What is written of pieces is read, by induction on them. -/
theorem readAtoms?_pieces
    (pieces : List Piece) :
    (pieces.flatMap (Piece.written escape) ++ closing).head? ≠ some '*' ∧
      readAtoms? (pieces.flatMap (Piece.written escape) ++ closing) =
        some (pieces.flatMap Piece.toAtoms) := by
  induction pieces with
  | nil => exact ⟨by decide, by decide⟩
  | cons piece pieces ih =>
      rcases ih with ⟨hHead, hRead⟩
      have hSome :
          pieces.flatMap (Piece.written escape) ++ closing ≠ [] :=
        List.append_ne_nil_of_right_ne_nil _ (by decide)
      rw [List.flatMap_cons, List.flatMap_cons, List.append_assoc]
      cases piece with
      | exact t =>
          refine ⟨head?_escape_append t hHead, ?_⟩
          rw [Piece.written, readAtoms?_escape_append t hSome, hRead]
          rfl
      | one =>
          refine ⟨by simp [Piece.written], ?_⟩
          have hPoint := readAtoms?_point hSome hHead
          rw [hRead] at hPoint
          exact hPoint
      | run =>
          refine ⟨by simp [Piece.written], ?_⟩
          have hStar :=
            readAtoms?_star
              (pieces.flatMap (Piece.written escape) ++ closing)
          rw [hRead] at hStar
          exact hStar

/- The expression of some pieces has their atoms. -/
theorem ofText?_written
    (pieces : List Piece) :
    ofText? (written escape pieces) =
      some ⟨pieces.flatMap Piece.toAtoms⟩ := by
  have hOpening :
      opening.isPrefixOf (written escape pieces) = true := by
    rw [List.isPrefixOf_iff_prefix, written, List.append_assoc]
    exact List.prefix_append _ _
  rw [ofText?, if_pos hOpening, written, List.append_assoc,
    List.drop_left, (readAtoms?_pieces pieces).2]
  rfl

------------------------------------------------------------
-- The Engine
------------------------------------------------------------

/- The atoms of a text cover just the text. -/
theorem isDivided_same_iff :
    Text.IsDivided Atom.Covers (t.map Atom.same) value ↔ value = t := by
  induction t generalizing value with
  | nil => exact Text.isDivided_nil_iff
  | cons c t ih =>
      rw [List.map_cons, Text.isDivided_cons_iff]
      simp [ih, Atom.Covers]

/- A piece covers what its atoms divide among them. -/
theorem isDivided_atoms_iff
    (piece : Piece) :
    Text.IsDivided Atom.Covers piece.toAtoms value ↔
      piece.Covers value := by
  cases piece with
  | exact t => exact isDivided_same_iff
  | one =>
      rw [Piece.toAtoms, Text.isDivided_cons_iff]
      simp [Text.isDivided_nil_iff, Atom.Covers, Piece.Covers]
  | run =>
      rw [Piece.toAtoms, Text.isDivided_cons_iff]
      simp [Text.isDivided_nil_iff, Atom.Covers, Piece.Covers]

theorem isDivided_pieces_iff
    (pieces : List Piece) :
    Text.IsDivided Atom.Covers (pieces.flatMap Piece.toAtoms) value ↔
      Text.IsDivided Piece.Covers pieces value := by
  induction pieces generalizing value with
  | nil => rw [List.flatMap_nil, Text.isDivided_nil_iff,
      Text.isDivided_nil_iff]
  | cons piece pieces ih =>
      simp only [List.flatMap_cons, Text.isDivided_append_iff,
        Text.isDivided_cons_iff, isDivided_atoms_iff, ih]

/- The engine of this library is lawful, for texts of any size. -/
theorem lawful_engine :
    engine.Lawful fun _ => True where
  reads pieces _ := by
    rw [show engine.ofText? = ofText? from rfl,
      show engine.escape = escape from rfl, ofText?_written]
    rfl
  covers_iff pieces expression value hRead := by
    rw [show engine.ofText? = ofText? from rfl,
      show engine.escape = escape from rfl, ofText?_written,
      Option.some.injEq] at hRead
    rw [← hRead, ← isDivided_pieces_iff]
    exact covers_iff_isDivided _ value

end Regex

end SqlSelect
