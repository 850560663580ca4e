import SqlSelect.Environment
import SqlSelect.Proofs.Cursor.Walk
import SqlSelect.Proofs.Text.Quoting

/-
  Names in writing. A name as it is written is one word with
  no point in it, so that it refers to what the name itself
  refers to. It does not have to be what the name came from:
  an item of the select list may go by another name.

  Main statements:
    * `Name.passes_written`
    * `Name.qualified_written`
    * `Name.Denotes`
    * `Name.read_back_written`
    * `Environment.Recalls`
    * `Environment.fieldName_of_denotes`
    * `Environment.fieldName_written`
    * `Environment.fieldName_written_eq_ok_iff`
-/

namespace SqlSelect

namespace Name

------------------------------------------------------------
-- One Word
------------------------------------------------------------

/-
  Nothing but characters of a plain name stands at the top
  level of a name as it is written.
-/
theorem passes_written
    {halt : Char → Bool}
    (hNone : ∀ c, isNameChar c = true → halt c = false)
    (name : Text) :
    Nesting.outside.Passes halt (written name) := by
  rcases written_cases name with ⟨hPlain, hText⟩ | ⟨-, hText⟩
  · rw [hText]
    have hBalanced := balanced_written name
    rw [hText] at hBalanced
    exact
      Nesting.passes_of_forall hBalanced fun c hMem =>
        hNone c (isNameChar_of_mem hPlain hMem)
  · rw [hText]
    exact
      Nesting.passes_of_hidden
        (Text.hidden_quoted (by decide) name)

theorem ne_point_of_isNameChar
    (c : Char)
    (hName : isNameChar c = true) :
    (c == '.') = false := by
  have hPoint : isNameChar '.' = false := by decide +kernel
  rw [beq_eq_false_iff_ne]
  rintro rfl
  rw [hPoint] at hName
  exact absurd hName (by decide)

/- Without a point at the top level there is no qualifier. -/
theorem qualified_of_passes
    {t : Text}
    (hTrim : Text.trim t = t)
    (hBalanced : Text.Balanced t)
    (hPasses : Nesting.outside.Passes (fun c => c == '.') t) :
    qualified t = .ok (none, unquote t) := by
  have hStop :=
    Stop.atTop_of_passes hBalanced hPasses
      (Or.inl rfl : Stop.Halts (fun c => c == '.') [])
  rw [List.append_nil] at hStop
  rw [qualified]
  simp only [hTrim, Cursor.ofText, hStop, Cursor.moveTo, if_true,
    Except.map]

/- A name as it is written has no qualifier. -/
theorem qualified_written
    (name : Text) :
    qualified (written name) = .ok (none, name) := by
  have hNone :=
    qualified_of_passes (trim_written name) (balanced_written name)
      (passes_written ne_point_of_isNameChar name)
  rwa [unquote_written] at hNone

/- A name in double quotes has none, whatever it is. -/
theorem qualified_quoted
    (name : Text) :
    qualified (quoted name) = .ok (none, name) := by
  have hNone :=
    qualified_of_passes (trim_quoted name)
      (Text.balanced_quoted (by decide) name)
      (Nesting.passes_of_hidden
        (Text.hidden_quoted (by decide) name))
  rwa [unquote_quoted] at hNone

theorem dropWhile_isNameChar_quoted
    (name : Text) :
    (quoted name).dropWhile isNameChar = quoted name := by
  have hQuote : isNameChar '"' = false := by decide +kernel
  rw [quoted, List.dropWhile_cons, hQuote]
  rfl

theorem dropWhile_isNameChar_of_isPlainName
    {name : Text}
    (hPlain : Text.IsPlainName name) :
    name.dropWhile isNameChar = [] := by
  rw [List.dropWhile_eq_nil_iff]
  intro c hMem
  exact isNameChar_of_mem hPlain hMem

/- A name in double quotes is no call. -/
theorem call?_quoted
    (name : Text) :
    Text.call? (quoted name) = .ok none := by
  have hRest := dropWhile_isNameChar_quoted name
  have hNone :
      Cursor.since (Cursor.ofText (quoted name))
        (Cursor.ofText (quoted name)) = [] :=
    Cursor.since_of_append (List.nil_append _).symm
  rw [Text.call?]
  simp only [Cursor.word, Cursor.skipWhile, Cursor.ofText, hRest]
  simp only [Cursor.ofText] at hNone
  rw [hNone]
  exact if_neg fun hBoth => absurd hBoth.1 (by decide)

/- A name as it is written is no call. -/
theorem call?_written
    (name : Text) :
    Text.call? (written name) = .ok none := by
  rcases written_cases name with ⟨hPlain, hText⟩ | ⟨-, hText⟩
  · have hRest := dropWhile_isNameChar_of_isPlainName hPlain
    rw [hText, Text.call?]
    simp only [Cursor.word, Cursor.skipWhile, Cursor.ofText, hRest,
      Cursor.atChar, Cursor.skipBlanks, Cursor.next?,
      List.dropWhile_nil, List.head?_nil]
    exact if_neg fun hBoth => absurd hBoth.2 (by decide)
  · rw [hText]
    exact call?_quoted name

/- The head of a name in writing is no bracket and no sign. -/
theorem head?_written_ne
    {c : Char}
    (name : Text)
    (hQuote : c ≠ '"')
    (hStart : isNameStart c = false) :
    (written name).head? ≠ some c := by
  intro hHead
  rcases written_cases name
    with ⟨hPlain, hText⟩ | ⟨-, hText⟩
  · rcases exists_head_of_isPlainName hPlain
      with ⟨d, rest, hName, hLetter⟩
    rw [hText, hName, List.head?_cons, Option.some.injEq] at hHead
    rw [hHead, hStart] at hLetter
    exact absurd hLetter (by decide)
  · rw [hText, quoted, List.head?_cons, Option.some.injEq]
      at hHead
    exact hQuote hHead.symm

------------------------------------------------------------
-- Texts that Denote a Name
------------------------------------------------------------

/-
  The text denotes a name and nothing else: there is no
  qualifier, no call and no blank around it.
-/
structure Denotes
    (t name : Text) : Prop where
  trimmed : Text.trim t = t
  single : qualified t = .ok (none, name)
  noCall : Text.call? t = .ok none

theorem denotes_written
    (name : Text) :
    Denotes (written name) name :=
  ⟨trim_written name, qualified_written name, call?_written name⟩

theorem denotes_quoted
    (name : Text) :
    Denotes (quoted name) name :=
  ⟨trim_quoted name, qualified_quoted name, call?_quoted name⟩

------------------------------------------------------------
-- Reading a Name Back
------------------------------------------------------------

/-
  The operand is read up to the blank behind the name, and the
  cursor stops in front of it.
-/
theorem operand_written
    (name t : Text) :
    (Cursor.ofText (written name ++ ' ' :: t)).operand =
      (.ok (written name), ⟨written name ++ ' ' :: t, ' ' :: t, 0⟩) := by
  have hStart :
      Text.trimStart (written name ++ ' ' :: t) =
        written name ++ ' ' :: t := by
    have hHead := (isTrimmed_written name).1
    cases hText : written name with
    | nil => exact absurd hText (written_ne_nil name)
    | cons c rest =>
        rw [hText] at hHead
        exact Text.trimStart_of_head (by simpa using hHead)
  refine Cursor.operand_eq hStart (balanced_written name) ?_ ?_
  · refine passes_written (fun c hName => ?_) name
    rw [isBlank_eq_false_of_isNameChar hName,
      isSymbol_eq_false_of_isNameChar hName, Bool.or_false]
  · exact .inr ⟨' ', t, rfl, by decide, rfl⟩

/- A name that is denoted refers to the field of that name only. -/
theorem Denotes.ofText?_eq
    {t name : Text}
    (hDenotes : Denotes t name)
    (schema : Schema)
    (scope : Scope) :
    Reference.ofText? schema scope t =
      .ok ((schema.find? name).map fun field =>
        ⟨none, name, field.type⟩) := by
  rw [Reference.ofText?, hDenotes.single]
  change Except.ok ((Reference.toField? schema none name).or none) = _
  rw [Option.or_none]
  rfl

/-
  Whatever the name, all that reads it reads it back as it is:
  the operand in front of a blank is the name as it is
  written, there is no qualifier in it, without its quotes it
  is the name, and it refers to the field of the name if the
  table has one.
-/
theorem read_back_written
    (schema : Schema)
    (scope : Scope)
    (name t : Text) :
    (Cursor.ofText (written name ++ ' ' :: t)).operand =
        (.ok (written name), ⟨written name ++ ' ' :: t, ' ' :: t, 0⟩) ∧
      qualified (written name) = .ok (none, name) ∧
      unquote (written name) = name ∧
      Reference.ofText? schema scope (written name) =
        .ok ((schema.find? name).map fun field =>
          ⟨none, name, field.type⟩) :=
  ⟨operand_written name t, qualified_written name, unquote_written name,
    (denotes_written name).ofText?_eq schema scope⟩

/- A quote, a point and blanks at both ends are part of the name. -/
example :
    qualified (written " a\"\".b ".toList) =
      .ok (none, " a\"\".b ".toList) := by
  decide +kernel

end Name

namespace Environment

------------------------------------------------------------
-- What a Name Refers To
------------------------------------------------------------

/-
  The name in writing refers to what has this name: an item
  of the select list if there is one for the text or for the
  name, and otherwise a field of the table.
-/
def Recalls
    (env : Environment)
    (name : Text) : Prop :=
  match
    (env.selected? (Name.written name)).or (env.selected? name)
  with
  | some item => item.columnName = name
  | none => (env.schema.find? name).isSome = true

instance
    (env : Environment)
    (name : Text) :
    Decidable (env.Recalls name) := by
  unfold Recalls
  split <;> infer_instance

section

variable (env : Environment)
variable {t name : Text}

/- The item of the select list that the text of a name finds. -/
theorem selectedField?_of_denotes
    (hDenotes : Name.Denotes t name) :
    env.selectedField? t = .ok (env.selected? name) := by
  unfold selectedField? selected?
  cases env.selected with
  | none => rfl
  | some list =>
      simp only [Scope.unqualified?, hDenotes.single]
      rfl

/- The field of the table that the text of a name finds. -/
theorem tableField_of_denotes
    (hDenotes : Name.Denotes t name) :
    env.tableField t =
      match env.schema.find? name with
      | some field => .ok ⟨none, name, field.type⟩
      | none => .error (.unknownField t) := by
  rw [tableField, hDenotes.ofText?_eq]
  cases env.schema.find? name <;> rfl

/- What the text of a name refers to. -/
theorem fieldName_of_denotes
    (hDenotes : Name.Denotes t name) :
    env.fieldName t =
      match (env.selected? t).or (env.selected? name) with
      | some item => .ok item.columnName
      | none =>
          match env.schema.find? name with
          | some _ => .ok name
          | none => .error (.unknownField t) := by
  have hAggregate : env.selectedAggregate? t = .ok none := by
    unfold selectedAggregate?
    cases env.selected with
    | none => rfl
    | some list =>
        simp only [Item.aggregateCall?, hDenotes.noCall]
        rfl
  unfold fieldName
  simp only [hDenotes.trimmed, hAggregate,
    selectedField?_of_denotes env hDenotes, tableField_of_denotes env hDenotes]
  cases env.selected? t with
  | some item => rfl
  | none =>
      cases env.selected? name with
      | some item => rfl
      | none =>
          cases env.schema.find? name with
          | some field => rfl
          | none => rfl

end

/- What a name in writing refers to. -/
theorem fieldName_written
    (env : Environment)
    (name : Text) :
    env.fieldName (Name.written name) =
      match
        (env.selected? (Name.written name)).or
          (env.selected? name)
      with
      | some item => .ok item.columnName
      | none =>
          match env.schema.find? name with
          | some _ => .ok name
          | none => .error (.unknownField (Name.written name)) :=
  env.fieldName_of_denotes (Name.denotes_written name)

/- A name is read back exactly when it is recalled. -/
theorem fieldName_written_eq_ok_iff
    {env : Environment}
    {name : Text} :
    env.fieldName (Name.written name) = .ok name ↔
      env.Recalls name := by
  rw [fieldName_written, Recalls]
  cases (env.selected? (Name.written name)).or
      (env.selected? name) with
  | some item => simp
  | none =>
      cases env.schema.find? name with
      | some field => simp
      | none => simp

end Environment

end SqlSelect
