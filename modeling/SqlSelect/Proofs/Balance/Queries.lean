import SqlSelect.Proofs.Balance.Items
import SqlSelect.Proofs.Balance.Pass
import SqlSelect.Proofs.Query.Assembly
import SqlSelect.Query.Basic

/-
  Errors about the balance of a text. They are found in a
  query, a condition or a list exactly when the text of it is
  not balanced, and a query that has been read once is never
  found at fault later, whatever schema it is resolved with.

  Main statements:
    * `Table.faultless_ofText`
    * `Query.ofText_eq_unbalanced_iff`
    * `Query.faultless_attempts`
    * `unbalanced_errors_exact`
-/

namespace SqlSelect

------------------------------------------------------------
-- Clauses
------------------------------------------------------------

namespace Clause

variable {query : Text}

theorem isLetters_of_mem_later
    (clause : Clause) :
    ∀ k ∈ clause.later.map keyword,
      ∀ w ∈ k.words, Text.IsLetters w := by
  intro k hMem
  rcases List.mem_map.mp hMem with ⟨other, -, rfl⟩
  exact isLetters_words other

/- The clauses of a balanced query are balanced. -/
theorem exists_text?
    (clause : Clause)
    (hBalanced : Text.Balanced query) :
    ∃ found,
      clause.text? query = .ok found ∧
        ∀ part, found = some part → Text.Balanced part :=
  Text.exists_section? _ _ (isLetters_words clause)
    (isLetters_of_mem_later clause) hBalanced

theorem faultless_text
    (clause : Clause)
    (hBalanced : Text.Balanced query) :
    Faultless (clause.text query) := by
  rcases exists_text? clause hBalanced with ⟨found, hFound, -⟩
  unfold text
  rw [hFound]
  cases found with
  | none => exact Faultless.error fun _ h => absurd h (by simp)
  | some part => exact Faultless.ok part

theorem balanced_text
    {clause : Clause}
    {part : Text}
    (hBalanced : Text.Balanced query)
    (hPart : clause.text query = .ok part) :
    Text.Balanced part := by
  rcases exists_text? clause hBalanced
    with ⟨found, hFound, hParts⟩
  unfold text at hPart
  rw [hFound] at hPart
  cases found with
  | none => exact absurd hPart (by simp [bind, Except.bind])
  | some found =>
      rcases Except.ok.inj hPart with rfl
      exact hParts found rfl

/- The search for a clause fails where the query is at fault. -/
theorem text?_of_not_balanced
    (clause : Clause)
    (hNot : ¬ Text.Balanced query) :
    clause.text? query = .error (.unbalanced query) := by
  rw [text?, Text.section?, Text.cutAtKeyword, Text.marked_eq,
    if_neg hNot]
  rfl

end Clause

/- All texts among the clauses are balanced. -/
structure Clauses.Balanced
    (clauses : Clauses) : Prop where
  select : Text.Balanced clauses.select
  filter :
    ∀ t, clauses.filter = some t → Text.Balanced t
  grouping :
    ∀ t, clauses.grouping = some t → Text.Balanced t
  groupFilter :
    ∀ t, clauses.groupFilter = some t → Text.Balanced t
  order :
    ∀ t, clauses.order = some t → Text.Balanced t
  limit :
    ∀ t, clauses.limit = some t → Text.Balanced t

theorem Clauses.faultless_ofText
    {query : Text}
    (hBalanced : Text.Balanced query) :
    Faultless (Clauses.ofText query) ∧
      ∀ clauses,
        Clauses.ofText query = .ok clauses →
          clauses.Balanced := by
  rcases Clause.exists_text? .filter hBalanced
    with ⟨filter, hFilter, hFilterParts⟩
  rcases Clause.exists_text? .grouping hBalanced
    with ⟨grouping, hGrouping, hGroupingParts⟩
  rcases Clause.exists_text? .groupFilter hBalanced
    with ⟨groupFilter, hGroupFilter, hGroupFilterParts⟩
  rcases Clause.exists_text? .order hBalanced
    with ⟨order, hOrder, hOrderParts⟩
  rcases Clause.exists_text? .limit hBalanced
    with ⟨limit, hLimit, hLimitParts⟩
  have hSelect :=
    Clause.faultless_text .select hBalanced
  unfold Clauses.ofText
  rw [hFilter, hGrouping, hGroupFilter, hOrder, hLimit]
  refine ⟨hSelect.bind fun _ _ => Faultless.ok _, ?_⟩
  intro clauses hClauses
  cases hText : Clause.select.text query with
  | error e =>
      rw [hText] at hClauses
      exact absurd hClauses (by simp [bind, Except.bind])
  | ok select =>
      rw [hText] at hClauses
      rcases Except.ok.inj hClauses with rfl
      exact
        { select := Clause.balanced_text hBalanced hText
          filter := hFilterParts
          grouping := hGroupingParts
          groupFilter := hGroupFilterParts
          order := hOrderParts
          limit := hLimitParts }

------------------------------------------------------------
-- Tables and Limits
------------------------------------------------------------

namespace Table

/- The name of a table is one of the words. -/
theorem mem_of_cutAlias?
    {words : List Text}
    {name : Text}
    {aliasName : Option Text}
    (hCut : cutAlias? words = some (name, aliasName)) :
    name ∈ words := by
  unfold cutAlias? at hCut
  split at hCut
  · simp_all
  · simp_all
  · split at hCut
    · simp_all
    · exact absurd hCut (by simp)
  · exact absurd hCut (by simp)

theorem faultless_ofText
    {clause : Text}
    (hBalanced : Text.Balanced clause) :
    Faultless (Table.ofText clause) := by
  unfold Table.ofText
  rw [Words.topWords_eq hBalanced]
  apply Faultless.bind (Faultless.ok _)
  intro words hWords
  rcases Except.ok.inj hWords with rfl
  split
  · exact Faultless.malformed _
  · rename_i name aliasName hCut
    have hName :=
      Words.balanced_of_mem_words hBalanced
        (mem_of_cutAlias? hCut)
    apply Faultless.bind (Name.faultless_qualified hName)
    intro parts _
    simp only
    split
    · exact Faultless.malformed _
    · exact Faultless.ok _

end Table

theorem Limit.faultless_ofText
    {clause : Text}
    (hBalanced : Text.Balanced clause) :
    Faultless (Limit.ofText clause) := by
  rcases Text.exists_splitTop ',' hBalanced
    with ⟨parts, hSplit, -⟩
  unfold Limit.ofText
  rw [hSplit]
  apply Faultless.bind (Faultless.ok _)
  intro pieces _
  simp only
  split
  · exact Faultless.ok _
  · exact Faultless.malformed _

------------------------------------------------------------
-- Resolution
------------------------------------------------------------

theorem faultless_readOptional
    {α : Type}
    {read : Text → Except Error α}
    {t? : Option Text}
    (hRead : ∀ t, t? = some t → Faultless (read t)) :
    Faultless (readOptional read t?) := by
  cases t? with
  | none => exact Faultless.ok none
  | some t => exact (hRead t rfl).map

theorem Condition.faultless_ofText
    {env : Environment}
    {t : Text}
    (hBalanced : Text.Balanced t) :
    Faultless (Condition.ofText env t) :=
  fun _ hFault =>
    (Condition.ofText_eq_unbalanced_iff.mp hFault).1 hBalanced

/- Balanced clauses are resolved without such a fault. -/
theorem Resolution.faultless_ofClauses
    {schema : Schema}
    {table : Table}
    {clauses : Clauses}
    (hBalanced : clauses.Balanced) :
    Faultless (Resolution.ofClauses schema table clauses) := by
  apply Faultless.bind
    (ItemList.faultless_ofText hBalanced.select)
  intro select _
  apply Faultless.bind (faultless_readOptional fun t h =>
    Condition.faultless_ofText (hBalanced.filter t h))
  intro filter _
  apply Faultless.bind (faultless_readOptional fun t h =>
    ItemList.faultless_ofText (hBalanced.grouping t h))
  intro grouping _
  apply Faultless.bind (faultless_readOptional fun t h =>
    Condition.faultless_ofText (hBalanced.groupFilter t h))
  intro groupFilter _
  apply Faultless.bind (faultless_readOptional fun t h =>
    ItemList.faultless_ofText (hBalanced.order t h))
  intro order _
  apply Faultless.bind (faultless_readOptional fun t h =>
    Limit.faultless_ofText (hBalanced.limit t h))
  intro limit _
  exact Faultless.ok _

------------------------------------------------------------
-- Queries
------------------------------------------------------------

namespace Query

variable {t u : Text}
variable {q : Query}

/- A query has the fault exactly when it is not balanced. -/
theorem ofText_eq_unbalanced_iff :
    Query.ofText t = .error (.unbalanced u) ↔
      ¬ Text.Balanced t ∧ u = t := by
  by_cases hBalanced : Text.Balanced t
  · have hFaultless : Faultless (Query.ofText t) := by
      apply Faultless.bind (Clause.faultless_text .table hBalanced)
      intro tableText hText
      apply Faultless.bind
        (Table.faultless_ofText
          (Clause.balanced_text hBalanced hText))
      intro table _
      exact Faultless.ok _
    constructor
    · exact fun h => absurd h (hFaultless u)
    · exact fun h => absurd hBalanced h.1
  · have hFault :
        Query.ofText t = .error (.unbalanced t) := by
      rw [Query.ofText, Clause.text,
        Clause.text?_of_not_balanced .table hBalanced]
      rfl
    rw [hFault]
    simp [hBalanced, eq_comm]

/- A query that is read keeps its text, which is balanced. -/
theorem balanced_of_ofText
    (hRead : Query.ofText t = .ok q) :
    Text.Balanced q.text := by
  have hBalanced : Text.Balanced t := by
    by_contra hNot
    have hFault := ofText_eq_unbalanced_iff.mpr ⟨hNot, rfl⟩
    rw [hFault] at hRead
    exact absurd hRead (by simp)
  unfold Query.ofText at hRead
  cases hText : Clause.table.text t with
  | error e => simp [hText, bind, Except.bind] at hRead
  | ok tableText =>
      cases hTable : Table.ofText tableText with
      | error e =>
          simp [hText, hTable, bind, Except.bind] at hRead
      | ok table =>
          rw [hText] at hRead
          simp only [bind, Except.bind, hTable,
            Except.ok.injEq] at hRead
          rw [← hRead]
          exact hBalanced

theorem faultless_resolve
    (schema : Schema)
    (hBalanced : Text.Balanced q.text) :
    Faultless (q.resolve schema) := by
  rcases Clauses.faultless_ofText hBalanced
    with ⟨hClauses, hParts⟩
  apply Faultless.bind hClauses
  intro clauses hRead
  apply Faultless.bind
    (Resolution.faultless_ofClauses (hParts clauses hRead))
  intro resolution _
  exact Faultless.ok _

/- An attempt leaves the text of a query as it is. -/
theorem text_attempt
    (schema : Schema)
    (q : Query) :
    (q.attempt schema).2.text = q.text := by
  unfold attempt
  cases hResolve : q.resolve schema with
  | error e => rfl
  | ok resolved =>
      unfold resolve at hResolve
      cases hClauses : Clauses.ofText q.text with
      | error e =>
          simp [hClauses, bind, Except.bind] at hResolve
      | ok clauses =>
          cases hResolution :
              Resolution.ofClauses schema q.table clauses with
          | error e =>
              simp [hClauses, hResolution, bind, Except.bind]
                at hResolve
          | ok resolution =>
              simp only [hClauses, hResolution, bind,
                Except.bind, Except.ok.injEq] at hResolve
              rw [← hResolve]

theorem faultless_attempt
    (schema : Schema)
    (hBalanced : Text.Balanced q.text) :
    Faultless (q.attempt schema).1 := by
  intro u hFault
  unfold attempt at hFault
  cases hResolve : q.resolve schema with
  | ok resolved => simp [hResolve] at hFault
  | error e =>
      simp only [hResolve, Except.error.injEq] at hFault
      rw [hFault] at hResolve
      exact faultless_resolve schema hBalanced u hResolve

/-
  No attempt of any number of them has the fault, by
  induction on the schemas.
-/
theorem faultless_attempts
    (schemas : List Schema)
    (hBalanced : Text.Balanced q.text) :
    ∀ outcome ∈ (q.attempts schemas).1, Faultless outcome := by
  induction schemas generalizing q with
  | nil => exact fun _ h => absurd h List.not_mem_nil
  | cons schema schemas ih =>
      intro outcome hMem
      rcases List.mem_cons.mp hMem with h | h
      · rw [h]
        exact faultless_attempt schema hBalanced
      · have hNext : Text.Balanced (q.attempt schema).2.text := by
          rw [text_attempt]
          exact hBalanced
        exact ih hNext outcome h

end Query

------------------------------------------------------------
-- All Errors about Balance
------------------------------------------------------------

/-
  Where these errors occur: in reading a query, a condition
  or a list, exactly when a pass over the text does not close
  all of it, with that text in the first two cases, and never
  once a query has been read.
-/
theorem unbalanced_errors_exact
    (t u : Text)
    (env : Environment)
    (ordered : Bool)
    (schemas : List Schema) :
    (Query.ofText t = .error (.unbalanced u) ↔
      ¬ Text.ClosesAll t ∧ u = t) ∧
    (Condition.ofText env t = .error (.unbalanced u) ↔
      ¬ Text.ClosesAll t ∧ u = t) ∧
    ((∃ v, ItemList.ofText env ordered t =
        .error (.unbalanced v)) ↔
      ¬ Text.ClosesAll t) ∧
    (∀ q, Query.ofText t = .ok q →
      ∀ outcome ∈ (q.attempts schemas).1,
        ∀ v, outcome ≠ .error (.unbalanced v)) := by
  rw [Text.closesAll_iff_balanced]
  refine
    ⟨Query.ofText_eq_unbalanced_iff,
      Condition.ofText_eq_unbalanced_iff,
      ItemList.exists_ofText_unbalanced_iff, ?_⟩
  intro q hRead
  exact Query.faultless_attempts schemas
    (Query.balanced_of_ofText hRead)

/-
  A query is read and resolved, with a closing parenthesis in
  quotes and a group in the condition, and is not found at
  fault.
-/
theorem unbalanced_errors_exact_quoted :
    ∃ q,
      Query.ofText
          "SELECT A FROM T WHERE (A = ')''(')".toList = .ok q ∧
        ∀ outcome ∈ (q.attempts
            [⟨[⟨"A".toList, .ofCategory .string⟩]⟩]).1,
          outcome = .ok () ∧
            ∀ v, outcome ≠ .error (.unbalanced v) := by
  let t := "SELECT A FROM T WHERE (A = ')''(')".toList
  let table : Table := ⟨none, "T".toList, none⟩
  have hRead :
      Query.ofText t = .ok ⟨t, "T".toList, table, none⟩ := by
    decide +kernel
  have hOk :
      ∀ outcome ∈ (Query.attempts ⟨t, "T".toList, table, none⟩
          [⟨[⟨"A".toList, .ofCategory .string⟩]⟩]).1,
        outcome = .ok () := by
    decide +kernel
  refine ⟨_, hRead, fun outcome hMem => ⟨hOk outcome hMem, ?_⟩⟩
  exact
    (unbalanced_errors_exact t [] ⟨⟨[]⟩, ⟨none, none⟩, none⟩ false
      [⟨[⟨"A".toList, .ofCategory .string⟩]⟩]).2.2.2 _ hRead
      outcome hMem

end SqlSelect
