import SqlSelect.Name
import SqlSelect.Schema

/-
  References to the fields of a table. A field may be
  qualified with the alias of the table or with the name of
  the service. A text with any other qualifier can still be
  the name of a field that has a point in it.

  Key definitions include:
    * `Scope`
    * `Scope.Accepts`
    * `Scope.unqualified?`
    * `Reference`
    * `Reference.ofText?`
-/

namespace SqlSelect

------------------------------------------------------------
-- Scopes
------------------------------------------------------------

/- The names that the table of a query goes by. -/
structure Scope where
  aliasName : Option Text
  service : Option Text
  deriving DecidableEq

namespace Scope

/- The qualifier is one of the names of the table. -/
def Accepts
    (scope : Scope)
    (qualifier : Text) : Prop :=
  scope.aliasName.any (fun name => Text.SameWord name qualifier) = true ∨
    scope.service.any (fun name => Text.SameWord name qualifier) = true

instance
    (scope : Scope)
    (qualifier : Text) :
    Decidable (scope.Accepts qualifier) := by
  unfold Accepts
  infer_instance

/- There is no qualifier, or one of the names of the table. -/
def AcceptsAny
    (scope : Scope)
    (qualifier : Option Text) : Prop :=
  qualifier.all (fun name => decide (scope.Accepts name)) = true

instance
    (scope : Scope)
    (qualifier : Option Text) :
    Decidable (scope.AcceptsAny qualifier) := by
  unfold AcceptsAny
  infer_instance

/-
  The name in a text, without a qualifier that is one of the
  names of the table.
-/
def unqualified?
    (scope : Scope)
    (t : Text) : Except Error (Option Text) :=
  (Name.qualified t).map fun (qualifier, name) =>
    if scope.AcceptsAny qualifier then some name else none

end Scope

------------------------------------------------------------
-- References
------------------------------------------------------------

/- A reference to a field that the schema has. -/
structure Reference where
  qualifier : Option Text
  name : Text
  type : FieldType
  deriving DecidableEq

namespace Reference

/- The reference to the field of a name, if there is one. -/
def toField?
    (schema : Schema)
    (qualifier : Option Text)
    (name : Text) : Option Reference :=
  (schema.find? name).map fun field => ⟨qualifier, name, field.type⟩

/-
  The reference that a text makes: to the field of its name
  if the qualifier is accepted, and otherwise, if there is a
  qualifier, to a field that has the whole text as its name.
-/
def ofText?
    (schema : Schema)
    (scope : Scope)
    (t : Text) : Except Error (Option Reference) :=
  (Name.qualified t).map fun (qualifier, name) =>
    let direct :=
      if scope.AcceptsAny qualifier then toField? schema qualifier name
      else none
    direct.or
      (if qualifier.isNone then none
       else toField? schema none (Name.unquote t))

end Reference

end SqlSelect
