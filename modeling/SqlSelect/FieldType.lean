import SqlSelect.Error

/-
  Types of fields and literals, the types that they are
  reported as, and the integer codes of these.

  Key definitions include:
    * `Category`
    * `Category.name`
    * `ReportedType`
    * `ReportedType.code`
    * `ReportedType.name`
    * `ReportedType.ofCode?`
    * `ReportedType.category`
    * `Category.reported`
    * `Category.ofCode`
    * `FieldType`
-/

namespace SqlSelect

------------------------------------------------------------
-- Categories
------------------------------------------------------------

/- The kinds of values that a field can hold. -/
inductive Category where
  | string
  | date
  | integer
  | number
  | bigNumber
  | boolean
  | binary
  | none
  deriving DecidableEq

namespace Category

/- Every category. -/
def all : List Category :=
  [ .string, .date, .integer, .number, .bigNumber, .boolean
  , .binary, .none ]

/- The name of the category. -/
def name : Category → Text
  | .string => "String".toList
  | .date => "Date".toList
  | .integer => "Integer".toList
  | .number => "Number".toList
  | .bigNumber => "BigNumber".toList
  | .boolean => "Boolean".toList
  | .binary => "Binary".toList
  | .none => "None".toList

end Category

------------------------------------------------------------
-- Reported Types
------------------------------------------------------------

/- The types that a client knows by a code. -/
inductive ReportedType where
  | bit
  | tinyint
  | smallint
  | integer
  | bigint
  | float
  | real
  | double
  | numeric
  | decimal
  | char
  | varchar
  | longvarchar
  | clob
  | date
  | time
  | timestamp
  | binary
  | varbinary
  | longvarbinary
  | blob
  | boolean
  | null
  | other
  deriving DecidableEq

namespace ReportedType

/- Every reported type. -/
def all : List ReportedType :=
  [ .bit, .tinyint, .smallint, .integer, .bigint, .float, .real
  , .double, .numeric, .decimal, .char, .varchar, .longvarchar
  , .clob, .date, .time, .timestamp, .binary, .varbinary
  , .longvarbinary, .blob, .boolean, .null, .other ]

/- The code of the type. -/
def code : ReportedType → Int
  | .bit => -7
  | .tinyint => -6
  | .smallint => 5
  | .integer => 4
  | .bigint => -5
  | .float => 6
  | .real => 7
  | .double => 8
  | .numeric => 2
  | .decimal => 3
  | .char => 1
  | .varchar => 12
  | .longvarchar => -1
  | .clob => 2005
  | .date => 91
  | .time => 92
  | .timestamp => 93
  | .binary => -2
  | .varbinary => -3
  | .longvarbinary => -4
  | .blob => 2004
  | .boolean => 16
  | .null => 0
  | .other => 1111

/- The name of the type. -/
def name : ReportedType → Text
  | .bit => "BIT".toList
  | .tinyint => "TINYINT".toList
  | .smallint => "SMALLINT".toList
  | .integer => "INTEGER".toList
  | .bigint => "BIGINT".toList
  | .float => "FLOAT".toList
  | .real => "REAL".toList
  | .double => "DOUBLE".toList
  | .numeric => "NUMERIC".toList
  | .decimal => "DECIMAL".toList
  | .char => "CHAR".toList
  | .varchar => "VARCHAR".toList
  | .longvarchar => "LONGVARCHAR".toList
  | .clob => "CLOB".toList
  | .date => "DATE".toList
  | .time => "TIME".toList
  | .timestamp => "TIMESTAMP".toList
  | .binary => "BINARY".toList
  | .varbinary => "VARBINARY".toList
  | .longvarbinary => "LONGVARBINARY".toList
  | .blob => "BLOB".toList
  | .boolean => "BOOLEAN".toList
  | .null => "NULL".toList
  | .other => "OTHER".toList

/- The type of a code. -/
def ofCode?
    (code : Int) : Option ReportedType :=
  all.find? fun reported => reported.code == code

/- The category of the values of the type. -/
def category : ReportedType → Category
  | .tinyint => .integer
  | .smallint => .integer
  | .integer => .integer
  | .bigint => .integer
  | .float => .number
  | .real => .number
  | .double => .number
  | .numeric => .bigNumber
  | .decimal => .bigNumber
  | .char => .string
  | .varchar => .string
  | .longvarchar => .string
  | .clob => .string
  | .date => .date
  | .time => .date
  | .timestamp => .date
  | .bit => .boolean
  | .boolean => .boolean
  | .binary => .binary
  | .varbinary => .binary
  | .longvarbinary => .binary
  | .blob => .binary
  | .null => .none
  | .other => .none

end ReportedType

namespace Category

/- The type that values of the category are reported as. -/
def reported : Category → ReportedType
  | .string => .varchar
  | .date => .timestamp
  | .integer => .bigint
  | .number => .double
  | .bigNumber => .decimal
  | .boolean => .boolean
  | .binary => .blob
  | .none => .other

/- The category of a code, which has to be known. -/
def ofCode
    (code : Int) : Except Error Category :=
  match ReportedType.ofCode? code with
  | some reported => .ok reported.category
  | .none => .error (.unsupportedType code)

end Category

------------------------------------------------------------
-- Field Types
------------------------------------------------------------

/-
  The type of a field: its category, and the length and the
  precision with which it is shown, if they are known.
-/
structure FieldType where
  category : Category
  length : Option Nat
  precision : Option Nat
  deriving DecidableEq

namespace FieldType

/- The type of a category without length and precision. -/
def ofCategory
    (category : Category) : FieldType :=
  ⟨category, none, none⟩

end FieldType

end SqlSelect
