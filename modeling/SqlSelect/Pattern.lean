import SqlSelect.Error
import SqlSelect.Regex

/-
  Patterns of LIKE. A percent sign covers any run of
  characters, an underscore any one character, and every
  other character itself. A pattern has to cover the whole
  value.

  A pattern is rewritten as a regular expression. Between the
  wildcards its characters are gathered and escaped together.

  Key definitions include:
    * `Pattern`
    * `Pattern.expressionText`
    * `Pattern.compile`
    * `Pattern.ofText?`
    * `Pattern.covers`
-/

namespace SqlSelect

/- A pattern, as it is written and as it was read. -/
structure Pattern (ρ : Type) where
  text : Text
  expression : ρ
  deriving DecidableEq

namespace Pattern

/- The expression for a wildcard. -/
def wildcard
    (c : Char) : Text :=
  if c = '%' then ".*".toList else ".".toList

/-
  Go on with the expression of a pattern. `done` is what has
  been written of it, and `literal` are the characters behind
  the last wildcard, which are still to be escaped.
-/
def writeFrom
    (escape : Text → Text)
    (done literal : Text) : Text → Text
  | [] => done ++ escape literal ++ Regex.closing
  | c :: rest =>
      if c = '%' ∨ c = '_' then
        writeFrom escape (done ++ escape literal ++ wildcard c) [] rest
      else writeFrom escape done (literal ++ [c]) rest

/- The regular expression that stands for a pattern. -/
def expressionText
    (escape : Text → Text)
    (t : Text) : Text :=
  writeFrom escape Regex.opening [] t

/-
  Compile the pattern in a text with the engine given. The
  text must not be missing, and its expression must be read.
-/
def compile
    {ρ : Type}
    (engine : Regex.Engine ρ) : Option Text → Except Error (Pattern ρ)
  | none => .error .missingPattern
  | some t =>
      match engine.ofText? (expressionText engine.escape t) with
      | none => .error .missingPattern
      | some expression => .ok ⟨t, expression⟩

/- The pattern in a text, which must not be missing. -/
def ofText? : Option Text → Except Error (Pattern Regex) :=
  compile Regex.engine

/- The pattern covers the value. -/
def covers
    (pattern : Pattern Regex)
    (value : Text) : Bool :=
  pattern.expression.covers value

end Pattern

end SqlSelect
