import SqlSelect.Item.Reading
import SqlSelect.Query.Clause
import SqlSelect.Query.Limit
import SqlSelect.Query.Table

/-
  Queries. A query knows its table from the start. Its other
  clauses are resolved against the schema of the table, which
  a caller looks up in between, and can be resolved again.

  Key definitions include:
    * `Resolution`
    * `Resolution.ofClauses`
    * `Query`
    * `Query.ofText`
    * `Query.resolve`
    * `Query.attempt`
    * `Query.attempts`
    * `Query.parameters`
    * `Query.same`
-/

namespace SqlSelect

------------------------------------------------------------
-- Resolution
------------------------------------------------------------

/- The clauses of a query, and what they stand for. -/
structure Resolution where
  clauses : Clauses
  select : ItemList
  filter : Option Condition
  grouping : Option ItemList
  groupFilter : Option Condition
  order : Option ItemList
  limit : Option Limit
  deriving DecidableEq

/- Read a text unless it is missing. -/
def readOptional
    {α : Type}
    (read : Text → Except Error α) :
    Option Text → Except Error (Option α)
  | none => .ok none
  | some t => (read t).map some

namespace Resolution

/-
  Resolve the clauses of a query on a table. The select list
  is there for the clauses behind the filter to refer to.
-/
def ofClauses
    (schema : Schema)
    (table : Table)
    (clauses : Clauses) : Except Error Resolution := do
  let env : Environment :=
    ⟨schema, ⟨table.aliasName, some table.service⟩, none⟩
  let select ← ItemList.ofText env false clauses.select
  let inner : Environment := { env with selected := some select }
  let filter ← readOptional (Condition.ofText env) clauses.filter
  let grouping ←
    readOptional (ItemList.ofText inner false) clauses.grouping
  let groupFilter ←
    readOptional (Condition.ofText inner) clauses.groupFilter
  let order ← readOptional (ItemList.ofText inner true) clauses.order
  let limit ← readOptional Limit.ofText clauses.limit
  .ok ⟨clauses, select, filter, grouping, groupFilter, order, limit⟩

/- Both lists are missing, or they are equal. -/
def sameList : Option ItemList → Option ItemList → Bool
  | none, none => true
  | some a, some b => a.same b
  | _, _ => false

/- Both conditions are missing, or they are equal. -/
def sameCondition : Option Condition → Option Condition → Bool
  | none, none => true
  | some a, some b => a.same b
  | _, _ => false

/- Two resolutions are equal, with equal values. -/
def same
    (a b : Resolution) : Bool :=
  (a.clauses == b.clauses && a.limit == b.limit)
    && a.select.same b.select
    && sameCondition a.filter b.filter
    && sameList a.grouping b.grouping
    && sameCondition a.groupFilter b.groupFilter
    && sameList a.order b.order

end Resolution

------------------------------------------------------------
-- Queries
------------------------------------------------------------

/- A query with its table, and resolved once that is done. -/
structure Query where
  text : Text
  tableText : Text
  table : Table
  resolution : Option Resolution
  deriving DecidableEq

namespace Query

/- Read the table of a query. -/
def ofText
    (t : Text) : Except Error Query := do
  let tableText ← Clause.table.text t
  let table ← Table.ofText tableText
  .ok ⟨t, tableText, table, none⟩

/- The query is resolved. -/
def isResolved
    (q : Query) : Bool :=
  q.resolution.isSome

/- Resolve the query against a schema. -/
def resolve
    (schema : Schema)
    (q : Query) : Except Error Query := do
  let clauses ← Clauses.ofText q.text
  let resolution ← Resolution.ofClauses schema q.table clauses
  .ok { q with resolution := some resolution }

/-
  Try to resolve the query. It stays as it is where that is
  refused.
-/
def attempt
    (schema : Schema)
    (q : Query) : Except Error Unit × Query :=
  match q.resolve schema with
  | .ok resolved => (.ok (), resolved)
  | .error e => (.error e, q)

/- Try to resolve the query against one schema after another. -/
def attempts
    (q : Query) : List Schema → List (Except Error Unit) × Query
  | [] => ([], q)
  | schema :: schemas =>
      let (outcome, next) := q.attempt schema
      let (outcomes, last) := next.attempts schemas
      (outcome :: outcomes, last)

/- The parameters that the filter binds. -/
def parameters
    (q : Query) : List (Text × Text) :=
  match q.resolution.bind Resolution.filter with
  | none => []
  | some filter => filter.parameters

/- Two queries are equal, with equal values. -/
def same
    (a b : Query) : Bool :=
  (a.text == b.text && a.tableText == b.tableText)
    && a.table == b.table
    && match a.resolution, b.resolution with
      | none, none => true
      | some r, some r' => r.same r'
      | _, _ => false

end Query

end SqlSelect
