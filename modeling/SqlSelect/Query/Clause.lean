import SqlSelect.Nesting.Section

/-
  The clauses of a query, in the order in which they are
  written, and their texts. A clause ends where the first of
  the clauses behind it begins.

  Key definitions include:
    * `Clause`
    * `Clause.keyword`
    * `Clause.later`
    * `Clause.text?`
    * `Clauses`
    * `Clauses.ofText`
-/

namespace SqlSelect

------------------------------------------------------------
-- Keywords
------------------------------------------------------------

/- The clauses of a query. -/
inductive Clause where
  | select
  | table
  | filter
  | grouping
  | groupFilter
  | order
  | limit
  deriving DecidableEq

namespace Clause

/- The keyword in front of the clause. -/
def keyword : Clause → Text
  | .select => "SELECT".toList
  | .table => "FROM".toList
  | .filter => "WHERE".toList
  | .grouping => "GROUP BY".toList
  | .groupFilter => "HAVING".toList
  | .order => "ORDER BY".toList
  | .limit => "LIMIT".toList

/- The clauses that can stand behind the clause. -/
def later : Clause → List Clause
  | .select =>
      [.table, .filter, .grouping, .groupFilter, .order, .limit]
  | .table => [.filter, .grouping, .groupFilter, .order, .limit]
  | .filter => [.grouping, .groupFilter, .order, .limit]
  | .grouping => [.groupFilter, .order, .limit]
  | .groupFilter => [.order, .limit]
  | .order => [.limit]
  | .limit => []

/- The text of the clause in a query, if it is not blank. -/
def text?
    (clause : Clause)
    (query : Text) : Except Error (Option Text) :=
  Text.section? clause.keyword (clause.later.map keyword) query

/- The text of a clause that must not be missing. -/
def text
    (clause : Clause)
    (query : Text) : Except Error Text := do
  match ← clause.text? query with
  | some found => .ok found
  | none => .error (.missingClause clause.keyword)

end Clause

------------------------------------------------------------
-- Texts
------------------------------------------------------------

/- The texts of the clauses of a query, apart from the table. -/
structure Clauses where
  select : Text
  filter : Option Text
  grouping : Option Text
  groupFilter : Option Text
  order : Option Text
  limit : Option Text
  deriving DecidableEq

namespace Clauses

/- Find the clauses of a query. -/
def ofText
    (query : Text) : Except Error Clauses := do
  let select ← Clause.select.text query
  let filter ← Clause.filter.text? query
  let grouping ← Clause.grouping.text? query
  let groupFilter ← Clause.groupFilter.text? query
  let order ← Clause.order.text? query
  let limit ← Clause.limit.text? query
  .ok ⟨select, filter, grouping, groupFilter, order, limit⟩

end Clauses

end SqlSelect
