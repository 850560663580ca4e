import SqlSelect.Condition.PredicateReading
import SqlSelect.Condition.Writing
import SqlSelect.Proofs.Recall.Literals

/-
  The shapes of predicates. What is read as a predicate is a
  parameter with a name and a value, a test for a missing
  value, a list, or a comparison with a literal or a field,
  and has nothing that its shape does not call for.

  Main statements:
    * `Comparison.isBinary`
    * `Predicate.Compares`
    * `Predicate.IsShaped`
    * `Predicate.compares_of_readComparison`
    * `Predicate.isShaped_of_ofText`
-/

namespace SqlSelect

------------------------------------------------------------
-- Outcomes
------------------------------------------------------------

section Outcomes

variable {α β : Type}
variable {outcome : Except Error α}
variable {b : β}

theorem bind_eq_ok_iff
    {f : α → Except Error β} :
    outcome >>= f = .ok b ↔ ∃ a, outcome = .ok a ∧ f a = .ok b := by
  cases outcome with
  | error e => simp [bind, Except.bind]
  | ok a => simp [bind, Except.bind]

theorem map_eq_ok_iff
    {f : α → β} :
    outcome.map f = .ok b ↔ ∃ a, outcome = .ok a ∧ f a = b := by
  cases outcome with
  | error e => simp [Except.map]
  | ok a => simp [Except.map]

end Outcomes

------------------------------------------------------------
-- Comparisons
------------------------------------------------------------

namespace Comparison

/- The comparison has one operand on its right. -/
def isBinary : Comparison → Bool
  | .inList => false
  | .isNull => false
  | .isNotNull => false
  | .parameter => false
  | _ => true

theorem isBinary_of_ofSymbol?
    {symbol : Text}
    {comparison : Comparison}
    (hFound : ofSymbol? symbol = some comparison) :
    comparison.isBinary = true := by
  unfold ofSymbol? at hFound
  split at hFound <;> cases hFound <;> rfl

theorem isBinary_of_ofWord?
    {word : Text}
    {comparison : Comparison}
    (hFound : ofWord? word = some comparison) :
    comparison.isBinary = true := by
  rw [ofWord?] at hFound
  split_ifs at hFound <;> cases hFound <;> rfl

end Comparison

------------------------------------------------------------
-- Shapes
------------------------------------------------------------

namespace Predicate

/-
  The predicate compares something with what is on its left:
  it has on its right what its comparison calls for.
-/
inductive Compares
    (left : Text) : Predicate → Prop where
  | test
      (comparison : Comparison)
      (hTest :
        comparison = .isNull ∨ comparison = .isNotNull) :
      Compares left (bare left comparison)
  | list
      (values : Text) :
      Compares left ⟨left, .inList, some values, none, none⟩
  | value
      (comparison : Comparison)
      (v : Literal)
      (hBinary : comparison.isBinary = true)
      (hRead : v.IsRead) :
      Compares left
        ⟨left, comparison, some v.shown, none, some v⟩
  | field
      (comparison : Comparison)
      (field : Text)
      (hBinary : comparison.isBinary = true) :
      Compares left ⟨left, comparison, none, some field, none⟩

/- The predicate binds a parameter, or it compares. -/
inductive IsShaped : Predicate → Prop where
  | parameter
      (name value : Text)
      (hName : ¬ Text.IsBlank name)
      (hValue : ¬ Text.IsBlank value) :
      IsShaped ⟨name, .parameter, some value, none, none⟩
  | compares
      {left : Text}
      {p : Predicate}
      (hCompares : Compares left p) :
      IsShaped p

theorem Compares.left_eq
    {left : Text}
    {p : Predicate}
    (hCompares : Compares left p) :
    p.left = left := by
  cases hCompares <;> rfl

theorem Compares.comparison_ne
    {left : Text}
    {p : Predicate}
    (hCompares : Compares left p) :
    p.comparison ≠ .parameter := by
  intro hParameter
  cases hCompares with
  | test comparison hTest =>
      rcases hTest with rfl | rfl <;> cases hParameter
  | list values => cases hParameter
  | value comparison v hBinary hRead =>
      rw [show comparison = .parameter from hParameter] at hBinary
      cases hBinary
  | field comparison field hBinary =>
      rw [show comparison = .parameter from hParameter] at hBinary
      cases hBinary

variable {env : Environment}
variable {predicate left : Text}
variable {comparison : Comparison}
variable {s : Cursor}
variable {p : Predicate}

theorem isShaped_of_readParameter
    (hRead : readParameter predicate s = .ok p) :
    IsShaped p := by
  rw [readParameter, bind_eq_ok_iff] at hRead
  rcases hRead with ⟨⟨interior, after⟩, -, hRest⟩
  rw [bind_eq_ok_iff] at hRest
  rcases hRest with ⟨name, hName, hRest⟩
  rw [bind_eq_ok_iff] at hRest
  rcases hRest with ⟨sign, -, hRest⟩
  rw [bind_eq_ok_iff] at hRest
  rcases hRest with ⟨value, hValue, hEq⟩
  simp only [parameterName] at hName
  simp only [parameterValue] at hValue
  split_ifs at hName with hNameBlank
  split_ifs at hValue with hValueBlank
  cases hName
  cases hValue
  cases hEq
  exact IsShaped.parameter _ _ hNameBlank hValueBlank

theorem compares_of_readNullTest
    (hRead : readNullTest predicate left s = .ok p) :
    Compares left p := by
  rw [readNullTest] at hRead
  simp only at hRead
  split at hRead
  · exact absurd hRead (by simp)
  · rw [map_eq_ok_iff] at hRead
    rcases hRead with ⟨-, -, rfl⟩
    refine Compares.test _ ?_
    cases s.afterKeyword? "NOT".toList with
    | some after => exact Or.inr rfl
    | none => exact Or.inl rfl

theorem compares_of_readList
    (hRead : readList predicate left s = .ok p) :
    Compares left p := by
  rw [readList] at hRead
  simp only at hRead
  split_ifs at hRead
  rw [bind_eq_ok_iff] at hRead
  rcases hRead with ⟨⟨interior, after⟩, -, hRest⟩
  rw [bind_eq_ok_iff] at hRest
  rcases hRest with ⟨-, -, hRest⟩
  rw [bind_eq_ok_iff] at hRest
  rcases hRest with ⟨values, -, hEq⟩
  cases hEq
  exact Compares.list _

theorem compares_of_readRight
    {rest : Text}
    (hBinary : comparison.isBinary = true)
    (hRead : readRight env predicate left comparison rest = .ok p) :
    Compares left p := by
  rw [readRight] at hRead
  simp only at hRead
  split_ifs at hRead
  split at hRead
  · rename_i v hValue
    cases hRead
    exact
      Compares.value _ v hBinary
        (Literal.isRead_of_ofText? hValue)
  · rw [bind_eq_ok_iff] at hRead
    rcases hRead with ⟨words, -, hRest⟩
    split_ifs at hRest
    rw [map_eq_ok_iff] at hRest
    rcases hRest with ⟨field, -, rfl⟩
    exact Compares.field _ _ hBinary

theorem compares_of_readWordComparison
    (hRead : readWordComparison env predicate left s = .ok p) :
    Compares left p := by
  rw [readWordComparison] at hRead
  simp only at hRead
  split_ifs at hRead
  · exact compares_of_readNullTest hRead
  · exact compares_of_readList hRead
  · split at hRead <;> exact absurd hRead (by simp)
  · split at hRead
    · exact absurd hRead (by simp)
    · rename_i comparison hWord
      exact
        compares_of_readRight
          (Comparison.isBinary_of_ofWord? hWord) hRead

/- What follows the left operand gives the predicate a shape. -/
theorem compares_of_readComparison
    (hRead : readComparison env predicate left s = .ok p) :
    Compares left p := by
  rw [readComparison] at hRead
  split at hRead
  · exact compares_of_readWordComparison hRead
  · split at hRead
    · exact absurd hRead (by simp)
    · rename_i comparison hSymbol
      exact
        compares_of_readRight
          (Comparison.isBinary_of_ofSymbol? hSymbol) hRead

/- What is read as a predicate has a shape. -/
theorem isShaped_of_ofText
    {t : Text}
    (hRead : ofText env t = .ok p) :
    IsShaped p := by
  rw [ofText] at hRead
  split_ifs at hRead
  split at hRead
  · exact isShaped_of_readParameter hRead
  · simp only at hRead
    rw [bind_eq_ok_iff] at hRead
    rcases hRead with ⟨operand, -, hRest⟩
    split_ifs at hRest
    rw [bind_eq_ok_iff] at hRest
    rcases hRest with ⟨left, -, hComparison⟩
    exact IsShaped.compares (compares_of_readComparison hComparison)

end Predicate

end SqlSelect
