import SqlSelect.Proofs.Condition.Rows
import SqlSelect.Proofs.Condition.Truth

/-
  The meaning of conditions in writing. Formulas are put in
  writing with parentheses only where an operand binds less
  tight than the keyword around it, NOT before AND before OR.
  What is read back has the value of the formula under every
  assignment of truth values to the predicates.

  Main statements:
    * `Formula.holds`
    * `Formula.RenderedAs`
    * `Formula.means_of_renderedAs`
    * `Formula.ofText_of_renderedAs`
-/

namespace SqlSelect

------------------------------------------------------------
-- Parts with NOT
------------------------------------------------------------

namespace Condition

/- A further NOT in front of a part turns its value round. -/
theorem exists_readPart_not
    {env : Environment}
    {deeper? : Option (Text → Except Error Condition)}
    {k b s : Text}
    {c : Condition}
    (hKeyword : Text.SameWord k "NOT".toList)
    (hGap : b ≠ [])
    (hBlank : Text.IsBlank b)
    (hRead : readPart env deeper? s = .ok c) :
    ∃ d,
      readPart env deeper? (k ++ (b ++ s)) = .ok d ∧
        ∀ truth, holds truth d = !holds truth c := by
  rcases readPart_eq_ok_iff.mp hRead with ⟨hText, hCase⟩
  have hLetters :=
    Text.isLetters_of_sameWord hKeyword isLetters_not
  have hWhole : ¬ Text.IsBlank (k ++ (b ++ s)) := by
    rw [Text.isBlank_append, Text.isBlank_append]
    exact fun h => hText h.2.2
  have hBare := bare_not hKeyword hGap hBlank hText
  rcases hCase with
    ⟨hEnclosed, p, hPredicate, rfl⟩ |
      ⟨inner, deeper, d, hEnclosed, hInner, rfl, hDeeper, rfl⟩
  · refine
      ⟨.atom (!(bare s).1) .first p,
        readPart_eq_ok_iff.mpr ⟨hWhole, Or.inl ?_⟩, ?_⟩
    · rw [hBare]
      exact ⟨hEnclosed, p, hPredicate, rfl⟩
    · intro truth
      simp [holds]
  · refine
      ⟨enclosed (d.negatedIf (!(bare s).1)),
        readPart_eq_ok_iff.mpr
          ⟨hWhole, Or.inr ⟨inner, deeper, d, ?_⟩⟩, ?_⟩
    · rw [hBare]
      exact ⟨hEnclosed, hInner, rfl, hDeeper, rfl⟩
    · intro truth
      simp [holds_enclosed, holds_negatedIf]

end Condition

------------------------------------------------------------
-- Formulas
------------------------------------------------------------

/-
  Formulas over predicates in writing. AND and OR take any
  number of operands, and a group is one in parentheses.
-/
inductive Formula where
  | leaf (text : Text) (predicate : Predicate)
  | not (operand : Formula)
  | and (first : Formula) (rest : List Formula)
  | or (first : Formula) (rest : List Formula)
  | group (inner : Formula)

namespace Formula

mutual

/- The value of a formula. -/
def holds
    (truth : Predicate → Bool) : Formula → Bool
  | .leaf _ predicate => truth predicate
  | .not operand => !holds truth operand
  | .and first rest => holds truth first && allHold truth rest
  | .or first rest => holds truth first || anyHold truth rest
  | .group inner => holds truth inner

/- All of the formulas hold. -/
def allHold
    (truth : Predicate → Bool) : List Formula → Bool
  | [] => true
  | f :: rest => holds truth f && allHold truth rest

/- Any of the formulas holds. -/
def anyHold
    (truth : Predicate → Bool) : List Formula → Bool
  | [] => false
  | f :: rest => holds truth f || anyHold truth rest

end

mutual

/- The predicates in the formula, each with its text. -/
def leaves : Formula → List (Text × Predicate)
  | .leaf text predicate => [(text, predicate)]
  | .not operand => leaves operand
  | .and first rest => leaves first ++ leavesOf rest
  | .or first rest => leaves first ++ leavesOf rest
  | .group inner => leaves inner

/- The predicates in some formulas. -/
def leavesOf : List Formula → List (Text × Predicate)
  | [] => []
  | f :: rest => leaves f ++ leavesOf rest

end

------------------------------------------------------------
-- Formulas in Writing
------------------------------------------------------------

/- How tight a formula binds: OR least, and then AND. -/
def tightness : Formula → Nat
  | .or _ _ => 0
  | .and _ _ => 1
  | _ => 2

/-
  The text of an operand, with blanks or without inside of
  the parentheses if it needs them.
-/
def Operand
    (needsParentheses : Prop)
    (rendered : Text → Prop)
    (t : Text) : Prop :=
  (¬ needsParentheses ∧ rendered t) ∨
    (needsParentheses ∧
      ∃ b s b',
        t = '(' :: (b ++ (s ++ b') ++ [')']) ∧
          Text.IsBlank b ∧ Text.IsBlank b' ∧ rendered s)

mutual

/-
  The text is the formula in writing. Keywords are in any
  letter case with blanks around them.
-/
def RenderedAs : Formula → Text → Prop
  | .leaf text _, t => t = text
  | .not operand, t =>
      ∃ k b s,
        t = k ++ (b ++ s) ∧ Text.SameWord k "NOT".toList ∧
          (b ≠ [] ∧ Text.IsBlank b) ∧
          Operand (operand.tightness < 2) (RenderedAs operand) s
  | .and first rest, t =>
      ∃ s u,
        t = s ++ u ∧
          Operand (first.tightness < 1) (RenderedAs first) s ∧
          RestRenderedAs "AND".toList 1 rest u
  | .or first rest, t =>
      ∃ s u,
        t = s ++ u ∧
          Operand (first.tightness < 0) (RenderedAs first) s ∧
          RestRenderedAs "OR".toList 0 rest u
  | .group inner, t => Operand True (RenderedAs inner) t

/-
  The text is some operands in writing with a keyword in
  front of each, which binds as tight as given.
-/
def RestRenderedAs
    (word : Text)
    (tight : Nat) : List Formula → Text → Prop
  | [], t => t = []
  | f :: rest, t =>
      ∃ joint s u,
        t = joint ++ (s ++ u) ∧ Text.IsJoint word joint ∧
          Operand (f.tightness < tight) (RenderedAs f) s ∧
          RestRenderedAs word tight rest u

end

/- The levels of parentheses around an operand. -/
def operandLevels
    (tight : Nat)
    (f : Formula)
    (levels : Nat) : Nat :=
  if f.tightness < tight then levels + 1 else levels

mutual

/- The largest number of parentheses inside each other. -/
def levels : Formula → Nat
  | .leaf _ _ => 0
  | .not operand => operandLevels 2 operand (levels operand)
  | .and first rest =>
      max (operandLevels 1 first (levels first)) (restLevels 1 rest)
  | .or first rest =>
      max (operandLevels 0 first (levels first)) (restLevels 0 rest)
  | .group inner => levels inner + 1

/- The largest number of parentheses in some operands. -/
def restLevels
    (tight : Nat) : List Formula → Nat
  | [] => 0
  | f :: rest =>
      max (operandLevels tight f (levels f)) (restLevels tight rest)

end

end Formula

------------------------------------------------------------
-- Reading with a Meaning
------------------------------------------------------------

/- What a text is to mean, under every assignment. -/
abbrev Meaning :=
  (Predicate → Bool) → Bool

namespace Condition

variable {env : Environment}
variable {allowance : Nat}
variable {v w : Meaning}
variable {s t : Text}

/- The text is a single part, and is read with the meaning. -/
def PartMeans
    (env : Environment)
    (allowance : Nat)
    (v : Meaning)
    (t : Text) : Prop :=
  IsPart t ∧
    ∃ c,
      readPart env (within env allowance) t = .ok c ∧
        ∀ truth, holds truth c = v truth

/- The text is a single row, and is read with the meaning. -/
def RowMeans
    (env : Environment)
    (allowance : Nat)
    (v : Meaning)
    (t : Text) : Prop :=
  Text.Balanced t ∧
    ∃ r parts,
      layout t = [r] ∧
        RowReadsAs env (within env allowance) r parts ∧
        parts ≠ [] ∧
        ∀ truth, parts.all (holds truth) = v truth

/- The text is some rows, and is read with the meaning. -/
def RowsMean
    (env : Environment)
    (allowance : Nat)
    (v : Meaning)
    (t : Text) : Prop :=
  Text.Balanced t ∧
    ∃ rows,
      ReadsAs env (within env allowance) (layout t) rows ∧
        rows ≠ [] ∧ (∀ parts ∈ rows, parts ≠ []) ∧
        ∀ truth,
          rows.any (fun parts => parts.all (holds truth)) =
            v truth

/- A text that binds as tight as given has the meaning. -/
def Means
    (env : Environment)
    (allowance : Nat) : Nat → Meaning → Text → Prop
  | 0 => RowsMean env allowance
  | 1 => RowMeans env allowance
  | _ => PartMeans env allowance

theorem PartMeans.row
    (hPart : PartMeans env allowance v t) :
    RowMeans env allowance v t := by
  rcases hPart with ⟨hText, c, hRead, hHolds⟩
  refine
    ⟨hText.balanced, [Text.trim t], [c],
      layout_of_isPart hText, ?_, by simp, ?_⟩
  · refine List.Forall₂.cons ?_ List.Forall₂.nil
    rw [readPart_trim]
    exact hRead
  · simpa using hHolds

theorem RowMeans.rows
    (hRow : RowMeans env allowance v t) :
    RowsMean env allowance v t := by
  rcases hRow
    with ⟨hBalanced, r, parts, hLayout, hReads, hNotNil, hAll⟩
  refine ⟨hBalanced, [parts], ?_, by simp, ?_, ?_⟩
  · rw [hLayout]
    exact List.Forall₂.cons hReads List.Forall₂.nil
  · simpa using hNotNil
  · simpa using hAll

/- What binds tighter can stand where less is asked for. -/
theorem Means.weaken
    {tight less : Nat}
    (hLess : less ≤ tight)
    (hMeans : Means env allowance tight v t) :
    Means env allowance less v t := by
  match tight, less with
  | 0, 0 => exact hMeans
  | 1, 0 => exact hMeans.rows
  | 1, 1 => exact hMeans
  | _ + 2, 0 => exact hMeans.row.rows
  | _ + 2, 1 => exact hMeans.row
  | _ + 2, _ + 2 => exact hMeans

/- Two rows with AND between them. -/
theorem RowMeans.and
    {joint : Text}
    (hJoint : Text.IsJoint "AND".toList joint)
    (hFirst : RowMeans env allowance v s)
    (hSecond : RowMeans env allowance w t) :
    RowMeans env allowance (fun truth => v truth && w truth)
      (s ++ (joint ++ t)) := by
  rcases hFirst
    with ⟨hBalanced, r, parts, hLayout, hReads, hNotNil, hAll⟩
  rcases hSecond
    with ⟨hBalanced', r', parts', hLayout', hReads', -, hAll'⟩
  refine
    ⟨Text.balanced_append hBalanced
        (Text.balanced_append (hJoint.balanced isLetters_and)
          hBalanced'),
      r ++ r', parts ++ parts', ?_, ?_, by simp [hNotNil], ?_⟩
  · rw [layout_and hJoint hBalanced hBalanced', hLayout,
      hLayout']
    rfl
  · exact List.rel_append hReads hReads'
  · intro truth
    rw [List.all_append, hAll, hAll']

/- Some rows with OR between them. -/
theorem RowsMean.or
    {joint : Text}
    (hJoint : Text.IsJoint "OR".toList joint)
    (hFirst : RowsMean env allowance v s)
    (hSecond : RowsMean env allowance w t) :
    RowsMean env allowance (fun truth => v truth || w truth)
      (s ++ (joint ++ t)) := by
  rcases hFirst
    with ⟨hBalanced, rows, hReads, hNotNil, hParts, hAny⟩
  rcases hSecond
    with ⟨hBalanced', rows', hReads', -, hParts', hAny'⟩
  refine
    ⟨Text.balanced_append hBalanced
        (Text.balanced_append (hJoint.balanced isLetters_or)
          hBalanced'),
      rows ++ rows', ?_, by simp [hNotNil], ?_, ?_⟩
  · rw [layout_or hJoint hBalanced hBalanced']
    exact List.rel_append hReads hReads'
  · intro parts hMem
    rcases List.mem_append.mp hMem with h | h
    · exact hParts parts h
    · exact hParts' parts h
  · intro truth
    rw [List.any_append, hAny, hAny']

/- A part with NOT in front of it. -/
theorem PartMeans.not
    {k b : Text}
    (hKeyword : Text.SameWord k "NOT".toList)
    (hGap : b ≠ [])
    (hBlank : Text.IsBlank b)
    (hPart : PartMeans env allowance v t) :
    PartMeans env allowance (fun truth => !v truth)
      (k ++ (b ++ t)) := by
  rcases hPart with ⟨hText, c, hRead, hHolds⟩
  rcases exists_readPart_not hKeyword hGap hBlank hRead
    with ⟨d, hNot, hTurned⟩
  refine ⟨isPart_not hKeyword hGap hBlank hText, d, hNot, ?_⟩
  intro truth
  rw [hTurned, hHolds]

/- What is read as rows holds as the rows do. -/
theorem RowsMean.exists_readNested
    (hRows : RowsMean env allowance v t) :
    ∃ c,
      readNested env allowance t = .ok c ∧
        ∀ truth, holds truth c = v truth := by
  rcases hRows
    with ⟨hBalanced, rows, hReads, hNotNil, hParts, hAny⟩
  refine
    ⟨ofRows rows, (readNested_eq_ok_iff hBalanced).mpr ⟨rows, hReads, rfl⟩,
      fun truth => ?_⟩
  rw [holds_ofRows truth hNotNil hParts, ← hAny]
  rfl

/- Rows in parentheses are a part, one level further out. -/
theorem RowsMean.group
    {b b' : Text}
    (hBlank : Text.IsBlank b)
    (hBlank' : Text.IsBlank b')
    (hRows : RowsMean env allowance v t) :
    PartMeans env (allowance + 1) v
      ('(' :: (b ++ (t ++ b') ++ [')'])) := by
  have hInner : RowsMean env allowance v (b ++ (t ++ b')) := by
    rcases hRows with ⟨hBalanced, rows, hReads, hRest⟩
    have hBehind :=
      (Text.balanced_append_blank_iff hBlank').mpr hBalanced
    refine
      ⟨Text.balanced_append (Text.balanced_of_isBlank hBlank)
          hBehind,
        rows, ?_, hRest⟩
    rw [layout_blank_append hBlank hBehind,
      layout_append_blank hBlank' hBalanced]
    exact hReads
  rcases hInner.exists_readNested with ⟨c, hRead, hHolds⟩
  rcases hInner with ⟨hBalanced, rows, hReads, -⟩
  refine ⟨isPart_group hBalanced, enclosed c, ?_, ?_⟩
  · exact readPart_group hBalanced
      (not_isBlank_of_layout hReads) hRead
  · intro truth
    rw [holds_enclosed, hHolds]

/- A text that is read as a predicate is a part. -/
theorem partMeans_of_ofText
    {p : Predicate}
    (hRead : ofText env t = .ok (.atom false .first p)) :
    PartMeans env allowance (fun truth => truth p) t := by
  rcases (readsRows_of_atom allowance hRead).isPart
    with ⟨hText, hPart⟩
  refine ⟨hText, .atom false .first p, hPart, ?_⟩
  intro truth
  simp [holds]

end Condition

namespace Formula

open Condition

variable {env : Environment}

/-
  An operand has the meaning of its formula in the place that
  it stands in.
-/
theorem means_of_operand
    {f : Formula}
    {tight allowance : Nat}
    {t : Text}
    (hOperand :
      Operand (f.tightness < tight) (RenderedAs f) t)
    (hLevels : operandLevels tight f f.levels ≤ allowance)
    (hFormula :
      ∀ (allowance : Nat) {t : Text},
        RenderedAs f t → f.levels ≤ allowance →
          Means env allowance f.tightness
            (fun truth => f.holds truth) t) :
    Means env allowance tight (fun truth => f.holds truth) t := by
  rcases hOperand with
    ⟨hTight, hRendered⟩ |
      ⟨hLoose, b, s, b', rfl, hBlank, hBlank', hRendered⟩
  · rw [operandLevels, if_neg hTight] at hLevels
    exact (hFormula allowance hRendered hLevels).weaken
      (by omega)
  · rw [operandLevels, if_pos hLoose] at hLevels
    rcases Nat.exists_eq_add_one_of_ne_zero
        (by omega : allowance ≠ 0)
      with ⟨less, rfl⟩
    have hInner :=
      (hFormula less hRendered (by omega)).weaken
        (Nat.zero_le f.tightness)
    have hPart :
        Means env (less + 1) 2 (fun truth => f.holds truth)
          ('(' :: (b ++ (s ++ b') ++ [')'])) :=
      RowsMean.group hBlank hBlank' hInner
    by_cases hMost : tight ≤ 2
    · exact hPart.weaken hMost
    · rcases Nat.exists_eq_add_of_le' (by omega : 2 ≤ tight)
        with ⟨more, rfl⟩
      exact hPart

/-
  The leaves of a formula are read as predicates, each on its
  own.
-/
def LeavesRead
    (env : Environment)
    (leaves : List (Text × Predicate)) : Prop :=
  ∀ leaf ∈ leaves,
    Condition.ofText env leaf.1 = .ok (.atom false .first leaf.2)

/-
  The keyword joins texts that bind as tight as given, and the
  values of the operands are joined one by one.
-/
structure Joins
    (env : Environment)
    (allowance : Nat)
    (word : Text)
    (tight : Nat)
    (join : Bool → Bool → Bool)
    (all : (Predicate → Bool) → List Formula → Bool) : Prop where
  nil : ∀ b truth, join b (all truth []) = b
  cons :
    ∀ b truth f rest,
      join b (all truth (f :: rest)) =
        join (join b (f.holds truth)) (all truth rest)
  means :
    ∀ {v w : Meaning} {joint s t : Text},
      Text.IsJoint word joint →
        Means env allowance tight v s →
        Means env allowance tight w t →
        Means env allowance tight
          (fun truth => join (v truth) (w truth)) (s ++ (joint ++ t))

theorem joins_and
    (env : Environment)
    (allowance : Nat) :
    Joins env allowance "AND".toList 1 Bool.and allHold where
  nil b truth := by rw [allHold, Bool.and_true]
  cons b truth f rest := by rw [allHold, Bool.and_assoc]
  means hJoint hFirst hSecond := RowMeans.and hJoint hFirst hSecond

theorem joins_or
    (env : Environment)
    (allowance : Nat) :
    Joins env allowance "OR".toList 0 Bool.or anyHold where
  nil b truth := by rw [anyHold, Bool.or_false]
  cons b truth f rest := by rw [anyHold, Bool.or_assoc]
  means hJoint hFirst hSecond := RowsMean.or hJoint hFirst hSecond

mutual

/-
  A formula in writing has its meaning, by induction on the
  formula.
-/
theorem means_of_renderedAs
    (f : Formula)
    (hLeaves : LeavesRead env f.leaves)
    (allowance : Nat)
    {t : Text}
    (hRendered : RenderedAs f t)
    (hLevels : f.levels ≤ allowance) :
    Means env allowance f.tightness
      (fun truth => f.holds truth) t := by
  cases f with
  | leaf text predicate =>
      rw [RenderedAs] at hRendered
      subst hRendered
      exact partMeans_of_ofText
        (hLeaves (t, predicate) List.mem_cons_self)
  | not operand =>
      rw [RenderedAs] at hRendered
      rcases hRendered
        with ⟨k, b, s, rfl, hKeyword, ⟨hGap, hBlank⟩, hOperand⟩
      have hPart : Means env allowance 2 _ s :=
        means_of_operand hOperand hLevels
          (means_of_renderedAs operand hLeaves)
      exact PartMeans.not hKeyword hGap hBlank hPart
  | and first rest =>
      rw [RenderedAs] at hRendered
      rcases hRendered with ⟨s, u, rfl, hOperand, hRest⟩
      have hFirst : Means env allowance 1 _ s :=
        means_of_operand hOperand
          ((Nat.le_max_left _ _).trans hLevels)
          (means_of_renderedAs first fun leaf h =>
            hLeaves leaf (List.mem_append_left _ h))
      exact
        means_of_rest rest
          (fun leaf h => hLeaves leaf (List.mem_append_right _ h))
          (joins_and env allowance) hRest
          ((Nat.le_max_right _ _).trans hLevels) hFirst
  | or first rest =>
      rw [RenderedAs] at hRendered
      rcases hRendered with ⟨s, u, rfl, hOperand, hRest⟩
      have hFirst : Means env allowance 0 _ s :=
        means_of_operand hOperand
          ((Nat.le_max_left _ _).trans hLevels)
          (means_of_renderedAs first fun leaf h =>
            hLeaves leaf (List.mem_append_left _ h))
      exact
        means_of_rest rest
          (fun leaf h => hLeaves leaf (List.mem_append_right _ h))
          (joins_or env allowance) hRest
          ((Nat.le_max_right _ _).trans hLevels) hFirst
  | group inner =>
      rw [RenderedAs] at hRendered
      rcases hRendered with
        ⟨hNever, -⟩ | ⟨-, b, s, b', rfl, hBlank, hBlank', hInner⟩
      · exact absurd trivial hNever
      · have hSome : allowance ≠ 0 := by
          rw [levels] at hLevels
          omega
        rcases Nat.exists_eq_add_one_of_ne_zero hSome
          with ⟨less, rfl⟩
        have hRows :=
          (means_of_renderedAs inner hLeaves less hInner
            (Nat.le_of_succ_le_succ hLevels)).weaken
            (Nat.zero_le inner.tightness)
        exact RowsMean.group hBlank hBlank' hRows

/- Operands behind a text join it, with the keyword in front. -/
theorem means_of_rest
    (rest : List Formula)
    (hLeaves : LeavesRead env (leavesOf rest))
    {allowance tight : Nat}
    {word : Text}
    {join : Bool → Bool → Bool}
    {all : (Predicate → Bool) → List Formula → Bool}
    {v : Meaning}
    {s u : Text}
    (hJoins : Joins env allowance word tight join all)
    (hRendered : RestRenderedAs word tight rest u)
    (hLevels : restLevels tight rest ≤ allowance)
    (hFirst : Means env allowance tight v s) :
    Means env allowance tight
      (fun truth => join (v truth) (all truth rest)) (s ++ u) := by
  cases rest with
  | nil =>
      rw [RestRenderedAs] at hRendered
      subst hRendered
      simpa [hJoins.nil] using hFirst
  | cons f rest =>
      rw [RestRenderedAs] at hRendered
      rcases hRendered
        with ⟨joint, w, u, rfl, hJoint, hOperand, hRest⟩
      have hNext :=
        means_of_operand hOperand
          ((Nat.le_max_left _ _).trans hLevels)
          (means_of_renderedAs f fun leaf h =>
            hLeaves leaf (List.mem_append_left _ h))
      have hWhole :=
        means_of_rest rest
          (fun leaf h => hLeaves leaf (List.mem_append_right _ h))
          hJoins hRest ((Nat.le_max_right _ _).trans hLevels)
          (hJoins.means hJoint hFirst hNext)
      simpa [hJoins.cons] using hWhole

end

/-
  A formula in writing is read, unless its parentheses are
  nested too deep, and what is read has the value of it.
-/
theorem ofText_of_renderedAs
    {f : Formula}
    {t : Text}
    (hLeaves : LeavesRead env f.leaves)
    (hRendered : RenderedAs f t)
    (hLevels : f.levels ≤ depthLimit) :
    ∃ c,
      Condition.ofText env t = .ok c ∧
        ∀ truth, c.holds truth = f.holds truth := by
  have hRows : RowsMean env depthLimit _ t :=
    (means_of_renderedAs f hLeaves _ hRendered hLevels).weaken
      (Nat.zero_le f.tightness)
  rcases id hRows with ⟨-, rows, hReads, -⟩
  rcases hRows.exists_readNested with ⟨c, hRead, hHolds⟩
  refine ⟨c, ?_, hHolds⟩
  rw [Condition.ofText, if_neg (not_isBlank_of_layout hReads)]
  exact hRead

/- Two fields with whole numbers. -/
def twoFields : Environment :=
  { schema :=
      ⟨[⟨"A".toList, .ofCategory .integer⟩,
        ⟨"B".toList, .ofCategory .integer⟩]⟩
    scope := ⟨none, none⟩
    selected := none }

/- The field of the name given is 1. -/
def isOne
    (name : Text) : Predicate :=
  ⟨name, .eq, some "1".toList, none, some (.integer 1)⟩

/- NOT stands in front of parentheses that it needs. -/
theorem ofText_of_renderedAs_not_or :
    ∃ c,
      Condition.ofText twoFields
          "not (A = 1 or B = 1)\nAND A = 1".toList = .ok c ∧
        ∀ truth, c.holds truth =
          (!(truth (isOne "A".toList) ||
              truth (isOne "B".toList)) &&
            truth (isOne "A".toList)) := by
  let a : Formula := .leaf "A = 1".toList (isOne "A".toList)
  let b : Formula := .leaf "B = 1".toList (isOne "B".toList)
  let f : Formula := .and (.not (.or a [b])) [a]
  have hLeaves : LeavesRead twoFields f.leaves := by
    intro leaf hMem
    simp only [f, a, b, leaves, leavesOf, List.append_nil,
      List.cons_append, List.nil_append, List.mem_cons,
      List.not_mem_nil, or_false] at hMem
    rcases hMem with rfl | rfl | rfl <;> decide +kernel
  have hOr :
      RenderedAs (.or a [b]) "A = 1 or B = 1".toList :=
    ⟨"A = 1".toList, " or B = 1".toList, by decide,
      Or.inl ⟨by decide, rfl⟩, " or ".toList, "B = 1".toList, [],
      by decide,
      ⟨[' '], "or".toList, [' '], by decide,
        ⟨by decide, by decide⟩, ⟨by decide, by decide⟩,
        by decide⟩,
      Or.inl ⟨by decide, rfl⟩, rfl⟩
  have hNot :
      RenderedAs (.not (.or a [b]))
        "not (A = 1 or B = 1)".toList :=
    ⟨"not".toList, [' '], "(A = 1 or B = 1)".toList, by decide,
      by decide, ⟨by decide, by decide⟩,
      Or.inr ⟨by decide, [], "A = 1 or B = 1".toList, [],
        by decide, by decide, by decide, hOr⟩⟩
  have hRendered :
      RenderedAs f
        "not (A = 1 or B = 1)\nAND A = 1".toList :=
    ⟨"not (A = 1 or B = 1)".toList, "\nAND A = 1".toList,
      by decide, Or.inl ⟨by decide, hNot⟩,
      "\nAND ".toList, "A = 1".toList, [], by decide,
      ⟨['\n'], "AND".toList, [' '], by decide,
        ⟨by decide, by decide⟩, ⟨by decide, by decide⟩,
        by decide⟩,
      Or.inl ⟨by decide, rfl⟩, rfl⟩
  rcases ofText_of_renderedAs hLeaves hRendered (by decide)
    with ⟨c, hRead, hHolds⟩
  refine ⟨c, hRead, fun truth => ?_⟩
  rw [hHolds]
  simp [f, a, b, holds, allHold, anyHold]

end Formula

end SqlSelect
