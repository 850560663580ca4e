import SqlSelect.Name
import SqlSelect.Nesting.Words

/-
  The table that a query reads: the name of a service, a
  qualifier in front of it or none, and an alias behind it or
  none, with AS between them or without.

  Key definitions include:
    * `Table`
    * `Table.cutAlias?`
    * `Table.ofText`
-/

namespace SqlSelect

/- A service, and the names in front of it and behind. -/
structure Table where
  qualifier : Option Text
  service : Text
  aliasName : Option Text
  deriving DecidableEq

namespace Table

/-
  The words for the name and the alias of a single table.
  Other words than these make no table.
-/
def cutAlias? : List Text → Option (Text × Option Text)
  | [name] => some (name, none)
  | [name, aliasName] => some (name, some aliasName)
  | [name, keyword, aliasName] =>
      if Text.SameWord keyword "AS".toList then some (name, some aliasName)
      else none
  | _ => none

/- The table of a name, which must not have empty parts. -/
def ofName
    (clause : Text)
    (aliasName : Option Text)
    (name : Text) : Except Error Table := do
  let (qualifier, service) ← Name.qualified name
  if service = [] ∨ qualifier = some [] then
    .error (.malformed (.emptyTableName clause))
  else .ok ⟨qualifier, service, aliasName.map Name.unquote⟩

/- Read the text of a clause as a single table. -/
def ofText
    (clause : Text) : Except Error Table := do
  let words ← Text.topWords clause
  match cutAlias? words.words with
  | none => .error (.malformed (.severalTables clause))
  | some (name, aliasName) => ofName clause aliasName name

end Table

end SqlSelect
