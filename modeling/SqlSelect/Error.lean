import SqlSelect.Condition.Comparison
import SqlSelect.Item.Function

/-
  The causes for which a query is refused, and the message
  of each of them.

  Key definitions include:
    * `Malformation`
    * `Malformation.message`
    * `Error`
    * `Error.message`
-/

namespace SqlSelect

------------------------------------------------------------
-- Incomplete Expressions
------------------------------------------------------------

/-
  What is wrong with the structure of an expression. The
  texts are the part that is at fault and what it stands in.
-/
inductive Malformation where
  | missingOperand
  | emptyGroup (part : Text)
  | tooDeep
  | notWithoutCondition
  | missingLeftOperand (predicate : Text)
  | missingComparator (predicate : Text)
  | missingRightOperand (predicate : Text)
  | textAfterOperand (comparison : Comparison) (predicate : Text)
  | missingParameterSign (predicate : Text)
  | missingList (predicate : Text)
  | emptyList (predicate : Text)
  | textAfterEnd (rest predicate : Text)
  | emptyItem
  | starWithAlias (expression : Text)
  | unknownFunction (name : Text)
  | starArgument (function : AggregateFunction)
  | missingArgument (expression : Text)
  | argumentCount (count : Nat) (expression : Text)
  | missingKeyword (keyword expression : Text)
  | textAfterKeyword (keyword expression : Text)
  | missingCondition (expression : Text)
  | severalTables (clause : Text)
  | emptyTableName (clause : Text)
  | badLimit (clause : Text)
  deriving DecidableEq

namespace Malformation

/- The text between single quotes. -/
private def named
    (t : Text) : Text :=
  "'".toList ++ t ++ "'".toList

/- What is wrong, in words. -/
def message : Malformation → Text
  | .missingOperand => "missing operand of AND/OR".toList
  | .emptyGroup part => part
  | .tooDeep => "nesting too deep".toList
  | .notWithoutCondition => "NOT without a condition".toList
  | .missingLeftOperand predicate => predicate
  | .missingComparator predicate =>
      "missing comparator in ".toList ++ named predicate
  | .missingRightOperand predicate =>
      "missing right operand in ".toList ++ named predicate
  | .textAfterOperand comparison predicate =>
      "unexpected text after ".toList ++ named comparison.spelling
        ++ " in ".toList ++ named predicate
  | .missingParameterSign predicate =>
      "expected '=' after parameter in ".toList ++ named predicate
  | .missingList predicate =>
      "expected '(' after IN in ".toList ++ named predicate
  | .emptyList predicate =>
      "empty IN list in ".toList ++ named predicate
  | .textAfterEnd rest predicate =>
      "unexpected ".toList ++ named rest ++ " in ".toList
        ++ named predicate
  | .emptyItem => "empty item in field list".toList
  | .starWithAlias expression =>
      named expression ++ " cannot take an alias".toList
  | .unknownFunction name => "unknown function ".toList ++ named name
  | .starArgument function =>
      function.spelling ++ "(*) is not supported".toList
  | .missingArgument expression =>
      "missing field in ".toList ++ named expression
  | .argumentCount count expression =>
      "IIF takes 3 arguments, got ".toList ++ Nat.toDigits 10 count
        ++ " in ".toList ++ named expression
  | .missingKeyword keyword expression =>
      "missing ".toList ++ keyword ++ " in ".toList ++ named expression
  | .textAfterKeyword keyword expression =>
      "unexpected text after ".toList ++ keyword ++ " in ".toList
        ++ named expression
  | .missingCondition expression =>
      "missing condition in ".toList ++ named expression
  | .severalTables clause =>
      "expected a single table in FROM ".toList ++ named clause
  | .emptyTableName clause =>
      "empty table name in FROM ".toList ++ named clause
  | .badLimit clause => "invalid LIMIT ".toList ++ named clause

end Malformation

------------------------------------------------------------
-- Causes
------------------------------------------------------------

/- Why a query is refused. -/
inductive Error where
  | unbalanced (text : Text)
  | unknownOperator (symbol : Text)
  | unknownField (reference : Text)
  | emptyParameterName
  | emptyParameterValue
  | unsupportedType (code : Int)
  | missingPattern
  | invalidLiteral (text : Text)
  | malformed (what : Malformation)
  | missingClause (keyword : Text)
  deriving DecidableEq

namespace Error

/- The cause in words. -/
def message : Error → Text
  | .unbalanced text =>
      "unbalanced quotes or parentheses in: ".toList ++ text
  | .unknownOperator symbol =>
      "unknown operator: '".toList ++ symbol ++ "'".toList
  | .unknownField reference => "unknown field: ".toList ++ reference
  | .emptyParameterName => "parameter name is empty".toList
  | .emptyParameterValue => "parameter value is empty".toList
  | .unsupportedType code =>
      "unsupported SQL type code: ".toList ++ (toString code).toList
  | .missingPattern => "LIKE pattern is missing".toList
  | .invalidLiteral text => "invalid literal: ".toList ++ text
  | .malformed what =>
      "malformed expression: ".toList ++ what.message
  | .missingClause keyword =>
      "missing ".toList ++ keyword ++ " clause".toList

end Error

/- Whether two outcomes are equal can be decided. -/
instance decidableEqExcept
    {ε α : Type}
    [DecidableEq ε]
    [DecidableEq α] :
    DecidableEq (Except ε α)
  | .ok a, .ok b =>
      decidable_of_iff (a = b) ⟨congrArg Except.ok, Except.ok.inj⟩
  | .error e, .error f =>
      decidable_of_iff (e = f) ⟨congrArg Except.error, Except.error.inj⟩
  | .ok _, .error _ => isFalse nofun
  | .error _, .ok _ => isFalse nofun

end SqlSelect
