import SqlSelect.Proofs.Origin.Queries

/-
  Resolving a query over and over. An attempt depends on the
  query as it was read and on the schema, and on nothing that
  an attempt before it has left. So the last attempt that was
  accepted decides what a row of attempts leaves behind.

  Main statements:
    * `Query.attempt_of_accepted`
    * `Query.attempt_of_refused`
    * `Query.outcomes_attempts`
    * `Query.unresolved_attempts`
    * `Query.attempts_of_ofText`
-/

namespace SqlSelect

namespace Query

/- The query as it was before it was resolved. -/
def unresolved
    (q : Query) : Query :=
  { q with resolution := none }

variable {schema : Schema}
variable {schemas : List Schema}
variable {q fresh : Query}

theorem unresolved_eq_iff :
    q.unresolved = fresh.unresolved ↔
      q.text = fresh.text ∧ q.tableText = fresh.tableText ∧
        q.table = fresh.table := by
  simp [unresolved]

------------------------------------------------------------
-- One Attempt
------------------------------------------------------------

/- A resolution that is there plays no part in the next one. -/
theorem resolve_unresolved
    (schema : Schema)
    (q : Query) :
    q.unresolved.resolve schema = q.resolve schema := rfl

theorem unresolved_resolve
    {resolved : Query}
    (hResolve : q.resolve schema = .ok resolved) :
    resolved.unresolved = q.unresolved ∧ resolved.isResolved = true := by
  rcases exists_ofClauses_of_resolve hResolve with
    ⟨clauses, r, -, -, rfl⟩
  exact ⟨rfl, rfl⟩

theorem outcome_attempt
    (schema : Schema)
    (q : Query) :
    (q.attempt schema).1 = (q.unresolved.attempt schema).1 := by
  simp only [attempt, resolve_unresolved]
  cases q.resolve schema <;> rfl

/- An attempt changes the resolution and nothing else. -/
theorem unresolved_attempt
    (schema : Schema)
    (q : Query) :
    (q.attempt schema).2.unresolved = q.unresolved := by
  rw [attempt]
  cases hResolve : q.resolve schema with
  | error e => rfl
  | ok resolved => exact (unresolved_resolve hResolve).1

/- What an accepted attempt leaves is what it leaves of a new query. -/
theorem attempt_of_accepted
    (hAccepted : (q.attempt schema).1 = .ok ()) :
    q.attempt schema = q.unresolved.attempt schema ∧
      (q.attempt schema).2.isResolved = true := by
  simp only [attempt, resolve_unresolved] at hAccepted ⊢
  cases hResolve : q.resolve schema with
  | error e =>
      rw [hResolve] at hAccepted
      cases hAccepted
  | ok resolved => exact ⟨rfl, (unresolved_resolve hResolve).2⟩

theorem attempt_of_refused
    (hRefused : (q.attempt schema).1 ≠ .ok ()) :
    (q.attempt schema).2 = q := by
  rw [attempt] at hRefused ⊢
  cases hResolve : q.resolve schema with
  | error e => rfl
  | ok resolved =>
      rw [hResolve] at hRefused
      exact absurd rfl hRefused

------------------------------------------------------------
-- Many Attempts
------------------------------------------------------------

/-
  Every attempt of many turns out as the only attempt would,
  by induction on the schemas with the query that earlier
  attempts have left.
-/
theorem outcomes_attempts
    (schemas : List Schema)
    (q : Query) :
    (q.attempts schemas).1 =
      schemas.map fun schema => (q.unresolved.attempt schema).1 := by
  induction schemas generalizing q with
  | nil => rfl
  | cons schema schemas ih =>
      have hRest := ih (q.attempt schema).2
      rw [unresolved_attempt] at hRest
      rw [List.map_cons, ← outcome_attempt, ← hRest]
      rfl

theorem unresolved_attempts
    (schemas : List Schema)
    (q : Query) :
    (q.attempts schemas).2.unresolved = q.unresolved := by
  induction schemas generalizing q with
  | nil => rfl
  | cons schema schemas ih =>
      exact (ih (q.attempt schema).2).trans (unresolved_attempt schema q)

theorem attempts_append
    (before after : List Schema)
    (q : Query) :
    (q.attempts (before ++ after)).2 =
      ((q.attempts before).2.attempts after).2 := by
  induction before generalizing q with
  | nil => rfl
  | cons schema before ih => exact ih (q.attempt schema).2

/- Refused attempts leave what was there, however many they are. -/
theorem attempts_of_refused
    (hRefused : ∀ outcome ∈ (q.attempts schemas).1, outcome ≠ .ok ()) :
    (q.attempts schemas).2 = q := by
  induction schemas with
  | nil => rfl
  | cons schema schemas ih =>
      have hFirst : (q.attempt schema).2 = q :=
        attempt_of_refused (hRefused _ List.mem_cons_self)
      change ((q.attempt schema).2.attempts schemas).2 = q
      rw [hFirst]
      apply ih
      intro outcome hMem
      apply hRefused
      refine List.mem_cons_of_mem _ ?_
      change outcome ∈ ((q.attempt schema).2.attempts schemas).1
      rwa [hFirst]

/-
  An accepted attempt with none but refused ones behind it
  decides what is left.
-/
theorem attempts_of_last_accepted
    {before after : List Schema}
    (hAccepted : (q.unresolved.attempt schema).1 = .ok ())
    (hRefused :
      ∀ later ∈ after, (q.unresolved.attempt later).1 ≠ .ok ()) :
    q.unresolved.attempt schema =
      (.ok (), (q.attempts (before ++ schema :: after)).2) := by
  have hFront := unresolved_attempts before q
  have hAttempt :
      (q.attempts before).2.attempt schema =
        q.unresolved.attempt schema := by
    rw [← hFront] at hAccepted ⊢
    exact (attempt_of_accepted ((outcome_attempt _ _).trans hAccepted)).1
  have hLast :
      (((q.attempts before).2.attempt schema).2.attempts after).2 =
        ((q.attempts before).2.attempt schema).2 := by
    apply attempts_of_refused
    rw [outcomes_attempts, unresolved_attempt, hFront]
    exact List.forall_mem_map.mpr hRefused
  rw [attempts_append]
  change
    _ = (_, (((q.attempts before).2.attempt schema).2.attempts after).2)
  rw [hLast, hAttempt, ← hAccepted]

/- A query is resolved once an attempt was accepted. -/
theorem isResolved_attempts_iff :
    (q.attempts schemas).2.isResolved = true ↔
      q.isResolved = true ∨ .ok () ∈ (q.attempts schemas).1 := by
  induction schemas generalizing q with
  | nil => simp [attempts]
  | cons schema schemas ih =>
      change
        ((q.attempt schema).2.attempts schemas).2.isResolved = true ↔
          _ ∨ .ok () ∈
            (q.attempt schema).1 ::
              ((q.attempt schema).2.attempts schemas).1
      rw [ih, List.mem_cons, ← or_assoc]
      refine or_congr_left ?_
      by_cases hAccepted : (q.attempt schema).1 = .ok ()
      · exact iff_of_true (attempt_of_accepted hAccepted).2
          (.inr hAccepted.symm)
      · rw [attempt_of_refused hAccepted]
        exact ⟨.inl, fun h => h.resolve_right fun h => hAccepted h.symm⟩

------------------------------------------------------------
-- Queries That Were Read
------------------------------------------------------------

/- A query that was read has its table and no resolution. -/
theorem unresolved_of_ofText
    {t : Text}
    (hRead : ofText t = .ok fresh) :
    fresh.unresolved = fresh ∧ fresh.text = t ∧
      Clause.table.text? t = .ok (some fresh.tableText) ∧
      Table.ofText fresh.tableText = .ok fresh.table := by
  rcases bind_eq_ok_iff.mp hRead with ⟨tableText, hText, hRest⟩
  rcases bind_eq_ok_iff.mp hRest with ⟨table, hTable, hEq⟩
  rcases bind_eq_ok_iff.mp hText with ⟨found, hFound, hSome⟩
  cases hEq
  cases found with
  | none => cases hSome
  | some text =>
      cases hSome
      exact ⟨rfl, rfl, hFound, hTable⟩

/-
  Any number of attempts to resolve a query that was read.
  Every one of them turns out as it would alone. What is left
  is what the last accepted one would leave alone, or the
  query that was read. Its text and its table are as they
  were, and the table is still what the text gives. It is
  resolved exactly if an attempt was accepted.
-/
theorem attempts_of_ofText
    {t : Text}
    (hRead : ofText t = .ok fresh)
    (schemas : List Schema) :
    let outcomes := (fresh.attempts schemas).1
    let left := (fresh.attempts schemas).2
    outcomes = schemas.map (fun schema => (fresh.attempt schema).1) ∧
    (∀ before schema after,
      schemas = before ++ schema :: after →
      outcomes[before.length]? = some (.ok ()) →
      (∀ outcome ∈ outcomes.drop (before.length + 1),
        outcome ≠ .ok ()) →
      fresh.attempt schema = (.ok (), left)) ∧
    ((∀ outcome ∈ outcomes, outcome ≠ .ok ()) → left = fresh) ∧
    (left.text = t ∧ left.table = fresh.table ∧
      left.tableText = fresh.tableText ∧
      Clause.table.text? left.text = .ok (some left.tableText) ∧
      Table.ofText left.tableText = .ok left.table) ∧
    (left.isResolved = true ↔ .ok () ∈ outcomes) := by
  rcases unresolved_of_ofText hRead with
    ⟨hFresh, rfl, hText, hTable⟩
  have hOutcomes := outcomes_attempts schemas fresh
  rw [hFresh] at hOutcomes
  rcases unresolved_eq_iff.mp (unresolved_attempts schemas fresh) with
    ⟨hKept, hTableText, hSame⟩
  refine
    ⟨hOutcomes, ?_, attempts_of_refused,
      ⟨hKept, hSame, hTableText, ?_, ?_⟩, ?_⟩
  · intro before schema after hSplit hAccepted hRefused
    subst hSplit
    rw [hOutcomes] at hAccepted hRefused
    have hBehind :
        (before ++ schema :: after).drop (before.length + 1) = after := by
      simp
    rw [← List.map_drop, hBehind] at hRefused
    have hLast :
        fresh.unresolved.attempt schema =
          (.ok (), (fresh.attempts (before ++ schema :: after)).2) := by
      apply attempts_of_last_accepted
      · rw [hFresh]
        simpa using hAccepted
      · intro later hMem
        rw [hFresh]
        exact hRefused _ (List.mem_map_of_mem hMem)
    rwa [hFresh] at hLast
  · rw [hKept, hTableText]
    exact hText
  · rw [hTableText, hSame]
    exact hTable
  · have hNone : fresh.isResolved = false := by
      rw [← hFresh]
      rfl
    rw [isResolved_attempts_iff, hNone]
    simp

/-
  A schema without the field, one with it, one where it is a
  string, and the first of them again.
-/
def changingSchemas : List Schema :=
  [⟨[]⟩, ⟨[⟨"A".toList, .ofCategory .integer⟩]⟩,
    ⟨[⟨"A".toList, .ofCategory .string⟩]⟩, ⟨[]⟩]

theorem attempts_of_ofText_changingSchemas :
    ∃ fresh,
      ofText "SELECT A FROM n.S AS x WHERE x.A > 1 LIMIT 5".toList =
          .ok fresh ∧
        (fresh.attempts changingSchemas).1 =
          [.error (.unknownField "A".toList), .ok (), .ok (),
            .error (.unknownField "A".toList)] ∧
        fresh.attempt ⟨[⟨"A".toList, .ofCategory .string⟩]⟩ =
          (.ok (), (fresh.attempts changingSchemas).2) ∧
        (fresh.attempts changingSchemas).2.isResolved = true ∧
        (fresh.attempts changingSchemas).2.table =
          ⟨some "n".toList, "S".toList, some "x".toList⟩ := by
  let t := "SELECT A FROM n.S AS x WHERE x.A > 1 LIMIT 5".toList
  let table : Table := ⟨some "n".toList, "S".toList, some "x".toList⟩
  have hRead :
      ofText t = .ok ⟨t, "n.S AS x".toList, table, none⟩ := by
    decide +kernel
  have hOutcomes :
      (attempts ⟨t, "n.S AS x".toList, table, none⟩ changingSchemas).1 =
        [.error (.unknownField "A".toList), .ok (), .ok (),
          .error (.unknownField "A".toList)] := by
    decide +kernel
  rcases attempts_of_ofText hRead changingSchemas with
    ⟨-, hLast, -, ⟨-, hTable, -⟩, hResolved⟩
  rw [hOutcomes] at hLast hResolved
  refine
    ⟨_, hRead, hOutcomes,
      hLast (changingSchemas.take 2) _ (changingSchemas.drop 3) rfl rfl
        ?_,
      hResolved.mpr ?_, hTable⟩
  · decide
  · decide

end Query

end SqlSelect
