import SqlSelect.Proofs.Condition.Form
import SqlSelect.Proofs.Condition.Rows

/-
  What the text of any tree is read as. The outline of a tree
  has the rows that the text of it falls into, put together
  from the outlines of its conditions in the way the texts
  are.

  Main statements:
    * `Condition.induct`
    * `Outline.groupRows`
    * `Condition.outline`
    * `Condition.readsRows_body`
    * `Condition.ofText_written_eq`
-/

namespace SqlSelect

------------------------------------------------------------
-- Induction over Trees
------------------------------------------------------------

namespace Condition

/- A group has a property when all of its conditions have it. -/
@[elab_as_elim]
theorem induct
    {motive : Condition → Prop}
    (atom :
      ∀ negated connective p, motive (.atom negated connective p))
    (group :
      ∀ negated connective cs,
        (∀ c ∈ cs, motive c) → motive (.group negated connective cs))
    (c : Condition) :
    motive c := by
  refine
    @Condition.rec motive (fun cs => ∀ c ∈ cs, motive c) atom group
      ?_ ?_ c
  · exact fun _ hMem => absurd hMem List.not_mem_nil
  · exact fun c cs hFirst hRest =>
      List.forall_mem_cons.mpr ⟨hFirst, hRest⟩

end Condition

------------------------------------------------------------
-- Outlines
------------------------------------------------------------

/-
  What a condition in writing is read as: the rows of the text
  without NOT in front of it, and what decides how the text is
  put together with others.
-/
structure Outline where
  negated : Bool
  isAtom : Bool
  connective : Connective
  rows : List (List Condition)

namespace Outline

open Condition

/-
  The rows with NOT in front of them where they are negated,
  and in parentheses behind NOT unless they are a predicate.
-/
def outer
    (o : Outline) : List (List Condition) :=
  if o.negated = false then o.rows
  else if o.isAtom then [[(ofRows o.rows).negatedIf true]]
  else [[enclosed ((ofRows o.rows).negatedIf true)]]

/- Rows with those of a condition that is not the first behind. -/
def join
    (rows : List (List Condition))
    (o : Outline) : List (List Condition) :=
  if o.connective = .or then rows ++ o.outer
  else glue (fun row row' => row ++ row') rows o.outer

/- The rows of a group. -/
def groupRows : List Outline → List (List Condition)
  | [] => []
  | [only] => [[enclosed ((ofRows only.rows).negatedIf only.negated)]]
  | first :: rest => rest.foldl join first.outer

end Outline

namespace Condition

mutual

/- The outline of a tree, with the predicates that are read. -/
def outline
    (read : Predicate → Predicate) : Condition → Outline
  | .atom negated connective predicate =>
      ⟨negated, true, connective, [[.atom false .first (read predicate)]]⟩
  | .group negated connective children =>
      ⟨negated, false, connective,
        Outline.groupRows (outlines read children)⟩

/- The outlines of some trees. -/
def outlines
    (read : Predicate → Predicate) : List Condition → List Outline
  | [] => []
  | child :: rest => outline read child :: outlines read rest

end

variable {env : Environment}
variable {allowance : Nat}
variable {s : Text}
variable {read : Predicate → Predicate}
variable {c : Condition}
variable {cs : List Condition}
variable {rows : List (List Condition)}

theorem outlines_eq
    (cs : List Condition) :
    outlines read cs = cs.map (outline read) := by
  induction cs with
  | nil => rfl
  | cons c cs ih => rw [outlines, ih, List.map_cons]

theorem writings_eq
    (cs : List Condition) :
    writings cs = cs.map writing := by
  induction cs with
  | nil => rfl
  | cons c cs ih => rw [writings, ih, List.map_cons]

@[simp]
theorem connective_outline
    (read : Predicate → Predicate)
    (c : Condition) :
    (outline read c).connective = c.connective := by
  cases c <;> rfl

@[simp]
theorem negated_outline
    (read : Predicate → Predicate)
    (c : Condition) :
    (outline read c).negated = c.negated := by
  cases c <;> rfl

theorem connective_writing
    (c : Condition) :
    c.writing.connective = c.connective := by
  cases c <;> rfl

------------------------------------------------------------
-- Parts of a Tree
------------------------------------------------------------

theorem predicatesOf_eq
    (cs : List Condition) :
    predicatesOf cs = cs.flatMap predicates := by
  induction cs with
  | nil => rfl
  | cons c cs ih => rw [predicatesOf, ih, List.flatMap_cons]

theorem mem_predicatesOf
    {p : Predicate} :
    p ∈ predicatesOf cs ↔ ∃ c ∈ cs, p ∈ c.predicates := by
  rw [predicatesOf_eq, List.mem_flatMap]

theorem isFilled_group
    {negated : Bool}
    {connective : Connective} :
    (group negated connective cs).IsFilled ↔
      cs ≠ [] ∧ ∀ c ∈ cs, c.IsFilled :=
  forall_groups_group

theorem levelsOf_le_iff
    {alone : Bool} :
    levelsOf alone cs ≤ allowance ↔
      ∀ c ∈ cs, c.levels alone ≤ allowance := by
  induction cs with
  | nil => simp [levelsOf]
  | cons c cs ih => simp [levelsOf, ih]

------------------------------------------------------------
-- Texts of Trees
------------------------------------------------------------

/- The predicates of the tree are read, each on its own. -/
def PredicatesRead
    (env : Environment)
    (read : Predicate → Predicate)
    (c : Condition) : Prop :=
  ∀ p ∈ c.predicates,
    ofText env p.written = .ok (.atom false .first (read p))

/-
  If the text without NOT is read as the rows, so is the text
  with NOT, which has parentheses of its own behind it.
-/
theorem readsRows_written
    (hBody :
      ∀ allowance,
        c.levels true ≤ allowance →
          ReadsRows env allowance c.writing.body (outline read c).rows)
    (hLevels : c.levels false ≤ allowance) :
    ReadsRows env allowance c.written (outline read c).outer := by
  cases c with
  | atom negated connective p =>
      rw [written_atom]
      have hRows := (hBody allowance (Nat.zero_le _)).not_atom negated
      cases negated <;> exact hRows
  | group negated connective cs =>
      cases negated with
      | false => exact hBody allowance (by simpa [levels] using hLevels)
      | true =>
          have hSome : allowance ≠ 0 := by
            rintro rfl
            simp [levels] at hLevels
          rcases Nat.exists_eq_add_one_of_ne_zero hSome
            with ⟨less, rfl⟩
          have hLess :
              (group true connective cs).levels true ≤ less := by
            simpa [levels] using hLevels
          exact (hBody less hLess).enclosed true

/- Texts behind others, with a keyword in front of each. -/
theorem readsRows_foldl
    (hFirst : ReadsRows env allowance s rows)
    (hRest :
      ∀ c ∈ cs,
        ReadsRows env allowance c.written (outline read c).outer) :
    ReadsRows env allowance
      (s ++ (cs.map writing).flatMap fun w => w.lead ++ w.text)
      ((cs.map (outline read)).foldl Outline.join rows) := by
  induction cs generalizing s rows with
  | nil => simpa using hFirst
  | cons c cs ih =>
      rw [List.forall_mem_cons] at hRest
      have hNext :
          ReadsRows env allowance
            (s ++ (c.writing.lead ++ c.writing.text))
            (Outline.join rows (outline read c)) := by
        rw [Written.lead, connective_writing, Outline.join,
          connective_outline]
        split
        · exact hFirst.or hRest.1
        · exact hFirst.and hRest.1
      simpa using ih hNext hRest.2

/-
  The text of a tree without NOT in front of it is read as the
  rows of its outline, by induction on the tree. One condition
  takes parentheses, and several stand as they are written.
-/
theorem readsRows_body
    (c : Condition)
    (hFilled : c.IsFilled)
    (hRead : c.PredicatesRead env read)
    (hLevels : c.levels true ≤ allowance) :
    ReadsRows env allowance c.writing.body (outline read c).rows := by
  induction c using induct generalizing allowance with
  | atom negated connective p =>
      exact readsRows_of_atom allowance (hRead p List.mem_cons_self)
  | group negated connective cs ih =>
      rcases isFilled_group.mp hFilled with ⟨hSome, hAll⟩
      have hChild {allowance : Nat} (c : Condition) (hMem : c ∈ cs) :
          c.levels true ≤ allowance →
            ReadsRows env allowance c.writing.body
              (outline read c).rows :=
        ih c hMem (hAll c hMem)
          fun p hIn => hRead p (mem_predicatesOf.mpr ⟨c, hMem, hIn⟩)
      rw [writing, outline]
      rcases cs with _ | ⟨first, _ | ⟨second, rest⟩⟩
      · exact absurd rfl hSome
      · have hPos : allowance ≠ 0 := by
          rintro rfl
          simp [levels] at hLevels
        rcases Nat.exists_eq_add_one_of_ne_zero hPos
          with ⟨less, rfl⟩
        have hLess : first.levels true ≤ less := by
          simpa [levels, levelsOf] using hLevels
        have hRows :=
          (hChild first List.mem_cons_self hLess).enclosed first.negated
        have hText :
            Written.groupText (writings [first]) =
              withNot first.negated
                (Written.inParentheses first.writing.body) := by
          rw [← negated_writing]
          cases hNegated : first.writing.negated <;>
            simp [writings, Written.groupText, withNot, hNegated]
        rw [hText]
        simpa [outlines, Outline.groupRows] using hRows
      · have hSeveral :
            ∀ c ∈ first :: second :: rest,
              ReadsRows env allowance c.written
                (outline read c).outer := by
          intro c hMem
          refine readsRows_written (fun _ => hChild c hMem) ?_
          simp only [levels, List.length_cons] at hLevels
          exact levelsOf_le_iff.mp (by simpa using hLevels) c hMem
        rw [List.forall_mem_cons] at hSeveral
        rw [writings_eq, outlines_eq]
        exact readsRows_foldl hSeveral.1 hSeveral.2

/- The text of a tree is read as the rows of its outline. -/
theorem ofText_written_eq
    (hFilled : c.IsFilled)
    (hLevels : c.levels false ≤ depthLimit)
    (hRead : c.PredicatesRead env read) :
    ofText env c.written = .ok (ofRows (outline read c).outer) :=
  (readsRows_written (fun _ => readsRows_body c hFilled hRead)
    hLevels).ofText_eq

end Condition

end SqlSelect
