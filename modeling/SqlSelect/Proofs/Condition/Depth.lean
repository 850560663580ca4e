import SqlSelect.Condition.Truth
import SqlSelect.Proofs.Recall.Trees

/-
  How deep the parentheses of a condition nest, as its tree
  shows it. The number of parentheses that may be open decides
  only whether a condition is read, not what it is read as:
  any number will do that the tree fits in.

  Main statements:
    * `Condition.nesting_ofRows_le_iff`
    * `Condition.readNested_of_nesting_le`
    * `Condition.readNested_eq_ok_iff_nesting`
-/

namespace SqlSelect

namespace Condition

------------------------------------------------------------
-- Depth of a Tree
------------------------------------------------------------

variable {c u : Condition}
variable {cs : List Condition}
variable {rows : List (List Condition)}
variable {allowance allowance' : Nat}

@[simp]
theorem nesting_atom
    (negated : Bool)
    (connective : Connective)
    (p : Predicate) :
    (atom negated connective p).nesting = 0 := by
  rw [nesting]

@[simp]
theorem nesting_joinedBy
    (c : Condition)
    (connective : Connective) :
    (c.joinedBy connective).nesting = c.nesting := by
  cases c <;> simp [joinedBy, nesting]

@[simp]
theorem nesting_negatedIf
    (c : Condition)
    (flip : Bool) :
    (c.negatedIf flip).nesting = c.nesting := by
  cases c <;> simp [negatedIf, nesting]

@[simp]
theorem nesting_enclosed
    (c : Condition) :
    (enclosed c).nesting = c.nesting + 1 := by
  simp [enclosed, nesting, nestingOf]

theorem nestingOf_le_iff :
    nestingOf cs ≤ allowance ↔ ∀ c ∈ cs, c.nesting ≤ allowance := by
  induction cs with
  | nil => simp [nestingOf]
  | cons c cs ih => simp [nestingOf, ih]

/- To join conditions opens no parentheses. -/
theorem nesting_joinAll_le_iff
    (connective : Connective) :
    (joinAll connective cs).nesting ≤ allowance ↔
      ∀ c ∈ cs, c.nesting ≤ allowance := by
  rcases cs with _ | ⟨c, _ | ⟨d, cs⟩⟩
  · simp [joinAll, empty, nesting, nestingOf]
  · simp [joinAll]
  · have hSeveral (first rest : Condition) (more : List Condition) :
        (group false .first (first :: rest :: more)).nesting =
          nestingOf (first :: rest :: more) := by
      simp [nesting]
    rw [joinAll, List.map_cons, hSeveral, nestingOf_le_iff]
    · simp
    · simp

theorem nesting_ofRows_le_iff :
    (ofRows rows).nesting ≤ allowance ↔
      ∀ row ∈ rows, ∀ u ∈ row, u.nesting ≤ allowance := by
  simp [ofRows, nesting_joinAll_le_iff]

------------------------------------------------------------
-- Depth and Reading
------------------------------------------------------------

variable {env : Environment}
variable {t : Text}

/-
  A part is read as the same condition within any two numbers
  of parentheses, if this holds of what stands in the
  parentheses and the second number is not too small.
-/
theorem readPart_of_nesting_le
    (hInner :
      ∀ deeper t d,
        within env allowance = some deeper → deeper t = .ok d →
          d.nesting + 1 ≤ allowance' →
            ∃ other,
              within env allowance' = some other ∧
                other t = .ok d)
    (hRead : readPart env (within env allowance) t = .ok u)
    (hNesting : u.nesting ≤ allowance') :
    readPart env (within env allowance') t = .ok u := by
  rcases readPart_eq_ok_iff.mp hRead with
    ⟨hText, hAtom | ⟨inner, deeper, d, hEnclosed, hSome, hDeeper, hd, rfl⟩⟩
  · exact readPart_eq_ok_iff.mpr ⟨hText, .inl hAtom⟩
  · rw [nesting_enclosed, nesting_negatedIf] at hNesting
    rcases hInner deeper inner d hDeeper hd hNesting
      with ⟨other, hOther, hd'⟩
    exact
      readPart_eq_ok_iff.mpr
        ⟨hText, .inr ⟨inner, other, d, hEnclosed, hSome, hOther, hd', rfl⟩⟩

/- Parts that are read as before are read together as before. -/
theorem readNested_of_parts
    (hParts :
      ∀ part u,
        readPart env (within env allowance) part = .ok u →
          u.nesting ≤ allowance' →
            readPart env (within env allowance') part = .ok u)
    (hRead : readNested env allowance t = .ok c)
    (hNesting : c.nesting ≤ allowance') :
    readNested env allowance' t = .ok c := by
  have hBalanced := balanced_of_readNested hRead
  rcases (readNested_eq_ok_iff hBalanced).mp hRead
    with ⟨rows, hReads, rfl⟩
  rw [nesting_ofRows_le_iff] at hNesting
  refine (readNested_eq_ok_iff hBalanced).mpr ⟨rows, ?_, rfl⟩
  rw [ReadsAs, List.forall₂_iff_get] at hReads ⊢
  refine ⟨hReads.1, fun i hi hi' => ?_⟩
  have hRow := hReads.2 i hi hi'
  rw [RowReadsAs, List.forall₂_iff_get] at hRow ⊢
  exact
    ⟨hRow.1, fun j hj hj' =>
      hParts _ _ (hRow.2 j hj hj')
        (hNesting _ (List.get_mem _ _) _ (List.get_mem _ _))⟩

/-
  What a condition is read as within some number of
  parentheses, it is read as within every number that is not
  too small for it, by induction on that number.
-/
theorem readNested_of_nesting_le
    (hRead : readNested env allowance t = .ok c)
    (hNesting : c.nesting ≤ allowance') :
    readNested env allowance' t = .ok c := by
  induction allowance' generalizing allowance t c with
  | zero =>
      refine readNested_of_parts ?_ hRead hNesting
      intro part u hPart hu
      refine readPart_of_nesting_le ?_ hPart hu
      intro deeper t d _ _ hDeep
      exact absurd hDeep (Nat.not_succ_le_zero _)
  | succ allowance' ih =>
      refine readNested_of_parts ?_ hRead hNesting
      intro part u hPart hu
      refine readPart_of_nesting_le ?_ hPart hu
      intro deeper t d hDeeper hd hDeep
      refine ⟨readNested env allowance', rfl, ?_⟩
      cases allowance with
      | zero => cases hDeeper
      | succ allowance =>
          cases hDeeper
          exact ih hd (Nat.le_of_succ_le_succ hDeep)

/- A tree with fewer levels than given is less deep. -/
theorem nesting_lt_of_isNested
    {levels : Nat}
    (hNested : IsNested levels c) :
    c.nesting < levels := by
  induction levels generalizing c with
  | zero => exact hNested.elim
  | succ levels ih =>
      rcases hNested with ⟨rows, rfl, -, hRows⟩
      refine Nat.lt_succ_of_le (nesting_ofRows_le_iff.mpr ?_)
      intro row hRow u hu
      cases (hRows row hRow).2 u hu with
      | atom negated p _ => simp
      | enclosed negated c hInner _ =>
          rw [nesting_enclosed, nesting_negatedIf]
          exact ih hInner

/-
  The number of parentheses that may be open decides whether
  a condition is read: it is if its tree fits in. It does not
  decide what the condition is read as.
-/
theorem readNested_eq_ok_iff_nesting :
    readNested env allowance t = .ok c ↔
      (∃ other, readNested env other t = .ok c) ∧
        c.nesting ≤ allowance := by
  constructor
  · intro hRead
    have hLt := nesting_lt_of_isNested (isNested_of_readNested hRead)
    exact ⟨⟨allowance, hRead⟩, Nat.le_of_lt_succ hLt⟩
  · rintro ⟨⟨other, hRead⟩, hNesting⟩
    exact readNested_of_nesting_le hRead hNesting

end Condition

end SqlSelect
