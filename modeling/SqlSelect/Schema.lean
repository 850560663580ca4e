import SqlSelect.FieldType

/-
  The fields of a table, in order, and the search for one of
  them by name.

  Key definitions include:
    * `Field`
    * `Schema`
    * `Schema.find?`
-/

namespace SqlSelect

/- A field of a table. -/
structure Field where
  name : Text
  type : FieldType
  deriving DecidableEq

/- The fields of a table, in order. -/
structure Schema where
  fields : List Field
  deriving DecidableEq

namespace Schema

/-
  The first field of the name given. Only if there is none,
  the letter case does not count.
-/
def find?
    (schema : Schema)
    (name : Text) : Option Field :=
  (schema.fields.find? fun field => field.name == name).or
    (schema.fields.find? fun field => Text.SameWord field.name name)

end Schema

end SqlSelect
