import SqlSelect.Proofs.Origin.Items
import SqlSelect.Query.Basic

/-
  Every name in a resolved query has been looked up. A name
  in a condition and the type of an item are those of fields
  of the table, through every way of referring to one, and
  however often the query is resolved.

  Main statements:
    * `Item.Validated`
    * `Item.Origin.validated`
    * `ItemList.validated_of_ofText`
    * `Resolution.Validated`
    * `Query.validated_of_resolve`
    * `Query.validated_of_attempts`
-/

namespace SqlSelect

------------------------------------------------------------
-- Items
------------------------------------------------------------

namespace Item

variable {env : Environment}
variable {schema : Schema}
variable {item : Item}

/-
  The type of the item is that of a field with the name of
  its source, unless it is a constant, a choice or the number
  of all rows.
-/
def Typed
    (schema : Schema)
    (item : Item) : Prop :=
  item.constant = none → item.choice = none → item.countsRows = false →
    ∃ field ∈ schema.fields,
      Text.SameWord field.name item.source ∧ item.type = some field.type

/-
  The item has the type of a field, if it has to, and the
  condition of a choice refers to fields of the table only.
-/
structure Validated
    (schema : Schema)
    (item : Item) : Prop where
  typed : item.Typed schema
  tested :
    ∀ choice, item.choice = some choice →
      ∀ p ∈ choice.condition.predicates, p.RefersTo schema.Has

/- The alias and the direction do not matter for that. -/
theorem validated_content_iff :
    item.content.Validated schema ↔ item.Validated schema :=
  ⟨fun h => ⟨h.typed, h.tested⟩, fun h => ⟨h.typed, h.tested⟩⟩

/- An item without a choice only needs its type. -/
theorem validated_of_typed
    (hTyped : item.Typed schema)
    (hChoice : item.choice = none) :
    item.Validated schema := by
  refine ⟨hTyped, fun choice hSome => ?_⟩
  rw [hChoice] at hSome
  exact absurd hSome (by simp)

/- The type of a reference is the type of a field it names. -/
theorem typed_of_resolves
    {scope : Scope}
    {reference : Reference}
    (hResolves : reference.Resolves schema scope)
    (hSource : item.source = reference.name)
    (hType : item.type = some reference.type) :
    item.Typed schema := by
  intro _ _ _
  rcases hResolves.found with ⟨field, hFind, hFieldType⟩
  rcases Schema.mem_of_find? hFind with ⟨hMem, hName⟩
  refine ⟨field, hMem, ?_, ?_⟩
  · rw [hSource]
    exact hName
  · rw [hType, hFieldType]

theorem IsField.validated
    {qualifier : Option Text}
    (hField : item.IsField schema qualifier) :
    item.Validated schema := by
  rcases hField with ⟨field, hMem, hContent⟩
  rw [← validated_content_iff, hContent]
  exact validated_of_typed (fun _ _ _ => ⟨field, hMem, rfl, rfl⟩) rfl

/-
  Wherever an item comes from, it is validated, if those of
  the select list are.
-/
theorem Origin.validated
    (hOrigin : item.Origin env)
    (hSelected :
      ∀ found, env.Selects found → found.Validated env.schema) :
    item.Validated env.schema := by
  rw [← validated_content_iff]
  cases hOrigin with
  | field reference hResolves hContent =>
      rw [hContent]
      exact
        validated_of_typed (typed_of_resolves hResolves rfl rfl) rfl
  | aggregate reference function distinct hResolves hContent =>
      rw [hContent]
      exact
        validated_of_typed (typed_of_resolves hResolves rfl rfl) rfl
  | rowCount hContent =>
      rw [hContent]
      refine validated_of_typed (fun _ _ hRows => ?_) rfl
      exact absurd hRows (by simp)
  | constant expression value hContent =>
      rw [hContent]
      refine validated_of_typed (fun hConstant => ?_) rfl
      exact absurd hConstant (by simp [ofConstant])
  | choice expression found hRead hContent =>
      rw [hContent]
      refine ⟨fun _ hChoice => absurd hChoice (by simp), ?_⟩
      intro choice hChoice p hMem
      cases hChoice
      have hRefers := Condition.refersTo_of_ofText hRead p hMem
      exact hRefers.mono fun name hNames => hNames.has rfl
  | selected found hSelects hContent =>
      rw [hContent, validated_content_iff]
      exact hSelected found hSelects

end Item

------------------------------------------------------------
-- Lists
------------------------------------------------------------

namespace ItemList

variable {env : Environment}
variable {schema : Schema}
variable {ordered : Bool}
variable {t : Text}
variable {list : ItemList}

/- All of the items are validated. -/
def Validated
    (schema : Schema)
    (list : ItemList) : Prop :=
  ∀ item ∈ list.items, item.Validated schema

/- A list is validated, if the select list is. -/
theorem validated_of_ofText
    (hRead : ofText env ordered t = .ok list)
    (hSelected :
      ∀ selected, env.selected = some selected →
        selected.Validated env.schema) :
    list.Validated env.schema := by
  intro item hMem
  rcases exists_reads_of_mem hRead hMem with ⟨piece, items, hReads, hIn⟩
  cases hReads with
  | star qualifier hStar hContents =>
      exact (Item.isField_of_mem hContents hIn).validated
  | single found hNoStar hOrigin hItems =>
      subst hItems
      cases List.mem_singleton.mp hIn
      refine hOrigin.validated ?_
      rintro other ⟨selected, hList, hOther⟩
      exact hSelected selected hList other hOther

end ItemList

------------------------------------------------------------
-- Resolution
------------------------------------------------------------

/- Nothing is left to show of what is missing. -/
theorem forall_of_readOptional
    {α : Type}
    {read : Text → Except Error α}
    {t? : Option Text}
    {found : Option α}
    {P : α → Prop}
    (hRead : readOptional read t? = .ok found)
    (hAll : ∀ t a, read t = .ok a → P a) :
    ∀ a, found = some a → P a := by
  intro a hFound
  cases t? with
  | none =>
      cases hRead
      exact absurd hFound (by simp)
  | some t =>
      rcases map_eq_ok_iff.mp hRead with ⟨b, hOne, rfl⟩
      cases hFound
      exact hAll t a hOne

namespace Resolution

variable {schema : Schema}

/-
  Names in the filter are those of fields of the table. Names
  in the group filter may also be those of columns of the
  select list. The items of all lists are validated.
-/
structure Validated
    (schema : Schema)
    (r : Resolution) : Prop where
  select : r.select.Validated schema
  filter :
    ∀ c, r.filter = some c →
      ∀ p ∈ c.predicates, p.RefersTo schema.Has
  grouping :
    ∀ list, r.grouping = some list → list.Validated schema
  groupFilter :
    ∀ c, r.groupFilter = some c →
      ∀ p ∈ c.predicates,
        p.RefersTo fun name =>
          (∃ item ∈ r.select.items, item.columnName = name) ∨
            schema.Has name
  order : ∀ list, r.order = some list → list.Validated schema

/- What the clauses are resolved to is validated. -/
theorem validated_of_ofClauses
    {table : Table}
    {clauses : Clauses}
    {r : Resolution}
    (hRead : ofClauses schema table clauses = .ok r) :
    r.Validated schema := by
  rcases bind_eq_ok_iff.mp hRead with ⟨select, hSelect, hRest⟩
  rcases bind_eq_ok_iff.mp hRest with ⟨filter, hFilter, hRest⟩
  rcases bind_eq_ok_iff.mp hRest with ⟨grouping, hGrouping, hRest⟩
  rcases bind_eq_ok_iff.mp hRest with ⟨groupFilter, hGroupFilter, hRest⟩
  rcases bind_eq_ok_iff.mp hRest with ⟨order, hOrder, hRest⟩
  rcases bind_eq_ok_iff.mp hRest with ⟨limit, -, hEq⟩
  cases hEq
  have hSelected : select.Validated schema :=
    ItemList.validated_of_ofText hSelect fun _ hSome =>
      absurd hSome (by simp)
  -- The select list is the only one the later clauses refer to.
  have hInner :
      ∀ list, some select = some list → list.Validated schema := by
    rintro list ⟨⟩
    exact hSelected
  refine ⟨hSelected, ?_, ?_, ?_, ?_⟩
  · refine forall_of_readOptional hFilter fun t c hCondition p hMem => ?_
    exact
      (Condition.refersTo_of_ofText hCondition p hMem).mono
        fun name hNames => hNames.has rfl
  · exact
      forall_of_readOptional hGrouping fun t list hList =>
        ItemList.validated_of_ofText hList hInner
  · refine
      forall_of_readOptional hGroupFilter fun t c hCondition p hMem => ?_
    refine (Condition.refersTo_of_ofText hCondition p hMem).mono ?_
    rintro name (⟨item, ⟨list, hList, hItem⟩, hName⟩ | hHas)
    · cases hList
      exact .inl ⟨item, hItem, hName⟩
    · exact .inr hHas
  · exact
      forall_of_readOptional hOrder fun t list hList =>
        ItemList.validated_of_ofText hList hInner

end Resolution

------------------------------------------------------------
-- Queries
------------------------------------------------------------

namespace Query

variable {schema : Schema}
variable {q resolved : Query}

theorem exists_ofClauses_of_resolve
    (hResolve : q.resolve schema = .ok resolved) :
    ∃ clauses r,
      Clauses.ofText q.text = .ok clauses ∧
        Resolution.ofClauses schema q.table clauses = .ok r ∧
          resolved = { q with resolution := some r } := by
  rcases bind_eq_ok_iff.mp hResolve with ⟨clauses, hClauses, hRest⟩
  rcases bind_eq_ok_iff.mp hRest with ⟨r, hResolution, hEq⟩
  exact ⟨clauses, r, hClauses, hResolution, (Except.ok.inj hEq).symm⟩

/- One that is refused leaves the resolution that was there. -/
theorem validated_of_attempt
    {r : Resolution}
    (hResolution : (q.attempt schema).2.resolution = some r) :
    q.resolution = some r ∨ r.Validated schema := by
  rw [attempt] at hResolution
  split at hResolution
  · rename_i resolved hResolve
    rcases exists_ofClauses_of_resolve hResolve with
      ⟨clauses, found, -, hRead, rfl⟩
    cases hResolution
    exact .inr (Resolution.validated_of_ofClauses hRead)
  · exact .inl hResolution

/-
  However often it is tried, a resolution is the one that was
  there, or is validated against one of the schemas.
-/
theorem validated_of_attempts
    {schemas : List Schema}
    {r : Resolution}
    (hResolution : (q.attempts schemas).2.resolution = some r) :
    q.resolution = some r ∨ ∃ schema ∈ schemas, r.Validated schema := by
  induction schemas generalizing q with
  | nil => exact .inl hResolution
  | cons schema schemas ih =>
      rcases ih hResolution with hAttempt | ⟨later, hMem, hValidated⟩
      · exact
          (validated_of_attempt hAttempt).imp_right fun hValidated =>
            ⟨schema, List.mem_cons_self, hValidated⟩
      · exact .inr ⟨later, List.mem_cons_of_mem _ hMem, hValidated⟩

/-
  A query that is resolved has a resolution in which every
  name and every item is validated.
-/
theorem validated_of_resolve
    (hResolve : q.resolve schema = .ok resolved) :
    ∃ r, resolved.resolution = some r ∧ r.Validated schema := by
  rcases exists_ofClauses_of_resolve hResolve with
    ⟨clauses, r, -, hRead, rfl⟩
  exact ⟨r, rfl, Resolution.validated_of_ofClauses hRead⟩

/- A field, an aggregate and a choice, and every clause. -/
def choosingQuery : Query :=
  ⟨("SELECT t.a, SUM(A) AS n, IIF(A = A, 1, 2) AS c FROM S t " ++
      "WHERE A > 1 GROUP BY a HAVING n > A ORDER BY c DESC " ++
      "LIMIT 5").toList,
    "S t".toList, ⟨none, "S".toList, some "t".toList⟩, none⟩

theorem validated_of_resolve_choosingQuery :
    ∃ resolved r,
      choosingQuery.resolve ⟨[⟨"A".toList, .ofCategory .integer⟩]⟩ =
          .ok resolved ∧
        resolved.resolution = some r ∧
        r.select.items.map Item.columnName =
          ["a".toList, "n".toList, "c".toList] ∧
        r.Validated ⟨[⟨"A".toList, .ofCategory .integer⟩]⟩ := by
  have hColumns :
      (choosingQuery.resolve
          ⟨[⟨"A".toList, .ofCategory .integer⟩]⟩).map
        (fun resolved =>
          resolved.resolution.map fun r =>
            r.select.items.map Item.columnName) =
      .ok (some ["a".toList, "n".toList, "c".toList]) := by
    decide +kernel
  rcases map_eq_ok_iff.mp hColumns with ⟨resolved, hResolve, hNames⟩
  rcases validated_of_resolve hResolve with ⟨r, hResolution, hValidated⟩
  rw [hResolution] at hNames
  exact
    ⟨resolved, r, hResolve, hResolution, Option.some.inj hNames,
      hValidated⟩

end Query

end SqlSelect
