import SqlSelect.Text.Basic

/-
  The values of an IN list in one text: they are joined with
  semicolons, and a semicolon inside a value stands behind a
  backslash.

  Key definitions include:
    * `ValueList.escape`
    * `ValueList.encode`
    * `ValueList.decode`
-/

namespace SqlSelect

namespace ValueList

/- Put a backslash in front of every semicolon. -/
def escape : Text → Text
  | [] => []
  | c :: rest =>
      if c = ';' then '\\' :: ';' :: escape rest else c :: escape rest

/- The values in one text. -/
def encode
    (values : List Text) : Text :=
  Text.join [';'] (values.map escape)

/-
  The values that a text holds. A backslash escapes nothing
  but a semicolon.
-/
def decode : Text → List Text
  | [] => [[]]
  | [c] => if c = ';' then [[], []] else [[c]]
  | c :: d :: rest =>
      if c = '\\' ∧ d = ';' then Text.pushFront ';' (decode rest)
      else if c = ';' then [] :: decode (d :: rest)
      else Text.pushFront c (decode (d :: rest))

end ValueList

end SqlSelect
