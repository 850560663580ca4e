import SqlSelect.Environment
import SqlSelect.Proofs.Cursor.Walk

/-
  Outcomes without a fault in the balance of a text. What is
  read in steps is free of such faults when every step is,
  and so is every reference that a balanced text makes.

  Main statements:
    * `Faultless`
    * `Faultless.bind`
    * `Faultless.mapM`
    * `Name.exists_qualified`
    * `Item.faultless_aggregateCall?`
    * `Environment.faultless_fieldName`
-/

namespace SqlSelect

------------------------------------------------------------
-- Outcomes
------------------------------------------------------------

/- The outcome is not that a text is not balanced. -/
def Faultless
    {α : Type}
    (outcome : Except Error α) : Prop :=
  ∀ t, outcome ≠ .error (.unbalanced t)

namespace Faultless

variable {α β : Type}

theorem ok
    (a : α) :
    Faultless (.ok a : Except Error α) :=
  fun _ h => absurd h (by simp)

/- Other causes of an error are no such fault. -/
theorem error
    {e : Error}
    (hOther : ∀ t, e ≠ .unbalanced t) :
    Faultless (.error e : Except Error α) :=
  fun t h => hOther t (Except.error.inj h)

theorem malformed
    (what : Malformation) :
    Faultless (.error (.malformed what) : Except Error α) :=
  error fun _ h => absurd h (by simp)

theorem map
    {outcome : Except Error α}
    {f : α → β}
    (hOutcome : Faultless outcome) :
    Faultless (outcome.map f) := by
  intro t hFault
  cases outcome with
  | error e =>
      exact hOutcome t (congrArg Except.error
        (Except.error.inj hFault))
  | ok a => exact absurd hFault (by simp [Except.map])

theorem bind
    {outcome : Except Error α}
    {f : α → Except Error β}
    (hOutcome : Faultless outcome)
    (hRest : ∀ a, outcome = .ok a → Faultless (f a)) :
    Faultless (outcome >>= f) := by
  intro t hFault
  cases outcome with
  | error e =>
      exact hOutcome t (congrArg Except.error
        (Except.error.inj hFault))
  | ok a => exact hRest a rfl t hFault

/- A list is read without fault when each part of it is. -/
theorem mapM
    {f : α → Except Error β}
    {as : List α}
    (hAll : ∀ a ∈ as, Faultless (f a)) :
    Faultless (as.mapM f) := by
  induction as with
  | nil =>
      rw [List.mapM_nil]
      exact ok []
  | cons a as ih =>
      rw [List.mapM_cons]
      apply bind (hAll a List.mem_cons_self)
      intro b _
      apply bind (ih fun a' h => hAll a' (List.mem_cons_of_mem a h))
      intro bs _
      exact ok (b :: bs)

end Faultless

------------------------------------------------------------
-- Names
------------------------------------------------------------

/- A balanced text has a qualifier and a name. -/
theorem Name.exists_qualified
    {t : Text}
    (hBalanced : Text.Balanced t) :
    ∃ name, Name.qualified t = .ok name := by
  have hTrim := Text.balanced_trim_iff.mpr hBalanced
  rcases Stop.exists_atTop (fun c => c == '.') hTrim
    with ⟨front, rest, -, -, -, -, -, hStop⟩
  unfold Name.qualified
  simp only [Cursor.ofText, hStop, Cursor.moveTo, if_true]
  exact ⟨_, rfl⟩

theorem Name.faultless_qualified
    {t : Text}
    (hBalanced : Text.Balanced t) :
    Faultless (Name.qualified t) := by
  rcases Name.exists_qualified hBalanced with ⟨name, hName⟩
  rw [hName]
  exact Faultless.ok name

theorem Scope.faultless_unqualified?
    {scope : Scope}
    {t : Text}
    (hBalanced : Text.Balanced t) :
    Faultless (scope.unqualified? t) :=
  (Name.faultless_qualified hBalanced).map

theorem Reference.faultless_ofText?
    {schema : Schema}
    {scope : Scope}
    {t : Text}
    (hBalanced : Text.Balanced t) :
    Faultless (Reference.ofText? schema scope t) :=
  (Name.faultless_qualified hBalanced).map

------------------------------------------------------------
-- Aggregates
------------------------------------------------------------

namespace Item

variable {schema : Schema}
variable {scope : Scope}
variable {expression : Text}
variable {function : AggregateFunction}

theorem isLetters_distinct :
    ∀ w ∈ Text.words "DISTINCT".toList, Text.IsLetters w := by
  decide

/- Without DISTINCT in front a text is as balanced as with it. -/
theorem balanced_splitDistinct
    {t : Text} :
    Text.Balanced (splitDistinct t).2 ↔ Text.Balanced t := by
  unfold splitDistinct
  split
  · rename_i after hAfter
    exact Cursor.balanced_afterKeyword? isLetters_distinct hAfter
  · rfl

theorem faultless_readRowCount :
    Faultless (readRowCount expression function) := by
  unfold readRowCount
  split
  · exact Faultless.ok _
  · exact Faultless.malformed _

theorem faultless_readFieldAggregate
    {distinct : Bool}
    {field : Text}
    (hBalanced : Text.Balanced field) :
    Faultless
      (readFieldAggregate schema scope expression function
        distinct field) := by
  unfold readFieldAggregate
  split
  · exact Faultless.malformed _
  · apply Faultless.bind (Reference.faultless_ofText? hBalanced)
    intro found _
    cases found with
    | none => exact Faultless.error fun _ h => absurd h (by simp)
    | some reference => exact Faultless.ok _

theorem faultless_readAggregate
    {argument : Text}
    (hBalanced : Text.Balanced argument) :
    Faultless
      (readAggregate schema scope expression function
        argument) := by
  have hTrim := Text.balanced_trim_iff.mpr hBalanced
  have hField :=
    Text.balanced_trim_iff.mpr (balanced_splitDistinct.mpr hTrim)
  unfold readAggregate
  simp only
  split
  · exact faultless_readRowCount
  · exact faultless_readFieldAggregate hField

theorem faultless_aggregateCall?
    (hBalanced : Text.Balanced expression) :
    Faultless (aggregateCall? schema scope expression) := by
  rcases Text.exists_call? hBalanced
    with ⟨found, hCall, hArgument⟩
  unfold aggregateCall?
  rw [hCall]
  cases found with
  | none => exact Faultless.ok none
  | some call =>
      have hBalancedArgument := hArgument call rfl
      simp only [bind, Except.bind]
      cases AggregateFunction.ofWord? call.1 with
      | none => exact Faultless.ok none
      | some function =>
          exact Faultless.bind
            (faultless_readAggregate hBalancedArgument)
            fun item _ => Faultless.ok _

end Item

------------------------------------------------------------
-- Environments
------------------------------------------------------------

namespace Environment

variable {env : Environment}
variable {t : Text}

theorem faultless_selectedField?
    (hBalanced : Text.Balanced t) :
    Faultless (env.selectedField? t) := by
  unfold selectedField?
  split
  · exact Faultless.ok none
  · exact (Scope.faultless_unqualified? hBalanced).map

theorem faultless_selectedAggregate?
    (hBalanced : Text.Balanced t) :
    Faultless (env.selectedAggregate? t) := by
  unfold selectedAggregate?
  split
  · exact Faultless.ok none
  · apply Faultless.bind (Item.faultless_aggregateCall? hBalanced)
    intro found _
    cases found with
    | none => exact Faultless.ok none
    | some aggregate =>
        simp only
        split
        · exact Faultless.error fun _ h => absurd h (by simp)
        · exact Faultless.ok _

theorem faultless_tableField
    (hBalanced : Text.Balanced t) :
    Faultless (env.tableField t) := by
  apply Faultless.bind (Reference.faultless_ofText? hBalanced)
  intro found _
  cases found with
  | none => exact Faultless.error fun _ h => absurd h (by simp)
  | some reference => exact Faultless.ok reference

/- A balanced operand is unknown at worst. -/
theorem faultless_fieldName
    (hBalanced : Text.Balanced t) :
    Faultless (env.fieldName t) := by
  have hTrim := Text.balanced_trim_iff.mpr hBalanced
  unfold fieldName
  simp only
  split
  · exact Faultless.ok _
  · apply Faultless.bind (faultless_selectedAggregate? hTrim)
    intro aggregate _
    cases aggregate with
    | some item => exact Faultless.ok _
    | none =>
        apply Faultless.bind (faultless_selectedField? hTrim)
        intro field _
        cases field with
        | some item => exact Faultless.ok _
        | none => exact (faultless_tableField hTrim).map

end Environment

end SqlSelect
