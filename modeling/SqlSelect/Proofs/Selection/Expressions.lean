import SqlSelect.Proofs.Literal.Spelling
import SqlSelect.Proofs.Selection.Aggregates
import SqlSelect.Proofs.Selection.Spelling

/-
  Expressions in other letters. Where no two fields have
  names that differ in letter case only, a text that refers to
  a field or calls an aggregate refers to the same field in
  other letters, or calls the same aggregate of it. A choice
  stays a choice, and a constant a constant.

  Main statements:
    * `Schema.NoTwins`
    * `Schema.NoTwins.find?_eq`
    * `Reference.find?_of_sameWord`
    * `Item.Expresses`
    * `Item.meansSame_of_aggregateCall?`
    * `Item.Expresses.plain_or_aggregate`
-/

namespace SqlSelect

------------------------------------------------------------
-- Fields
------------------------------------------------------------

namespace Schema

variable {schema : Schema}
variable {name name' : Text}

/- Names that differ in letter case only are one name. -/
def NoTwins
    (schema : Schema) : Prop :=
  ∀ a ∈ schema.fields, ∀ b ∈ schema.fields,
    Text.SameWord a.name b.name → a.name = b.name

instance
    (schema : Schema) :
    Decidable schema.NoTwins := by
  unfold NoTwins
  infer_instance

/- Exact names do not come first where there are no twins. -/
theorem NoTwins.find?_eq_folded
    (hNoTwins : schema.NoTwins)
    (name : Text) :
    schema.find? name =
      schema.fields.find? fun field => Text.SameWord field.name name := by
  cases hExact : schema.fields.find? fun field => field.name == name with
  | none => rw [find?, hExact, Option.none_or]
  | some field =>
      have hName : field.name = name := by
        simpa using List.find?_some hExact
      have hMem := List.mem_of_find?_eq_some hExact
      have hSame :
          ∀ other ∈ schema.fields,
            (other.name == name) =
              decide (Text.SameWord other.name name) := by
        intro other hOther
        rw [Bool.eq_iff_iff, beq_iff_eq, decide_eq_true_eq, ← hName]
        exact
          ⟨congrArg Text.foldCase, hNoTwins other hOther field hMem⟩
      rw [find?, hExact, Option.some_or, ← hExact, ← List.head?_filter,
        ← List.head?_filter, List.filter_congr hSame]

/- What a name refers to does not depend on its letter case then. -/
theorem NoTwins.find?_eq
    (hNoTwins : schema.NoTwins)
    (hSame : Text.SameWord name name') :
    schema.find? name = schema.find? name' := by
  simp only [hNoTwins.find?_eq_folded, Text.SameWord,
    show Text.foldCase name = Text.foldCase name' from hSame]

/- The field of an exact name has this name. -/
theorem exists_find?_of_mem
    {field : Field}
    (hMem : field ∈ schema.fields) :
    ∃ found, schema.find? field.name = some found ∧
      found.name = field.name := by
  cases hExact :
      schema.fields.find? fun other => other.name == field.name with
  | none =>
      rw [List.find?_eq_none] at hExact
      exact absurd (hExact field hMem) (by simp)
  | some found =>
      refine ⟨found, by rw [find?, hExact, Option.some_or], ?_⟩
      simpa using List.find?_some hExact

end Schema

------------------------------------------------------------
-- References
------------------------------------------------------------

namespace Reference

variable {schema : Schema}
variable {scope : Scope}
variable {s t : Text}
variable {reference reference' : Reference}

/-
  The name of a reference is what is behind an accepted
  qualifier, if there is such a field, and otherwise the text.
-/
theorem exists_of_ofText?
    (hRead : ofText? schema scope t = .ok (some reference)) :
    ∃ qualifier name,
      Name.qualified t = .ok (qualifier, name) ∧
        reference.name =
          if scope.AcceptsAny qualifier ∧ (schema.find? name).isSome = true
          then name else Name.unquote t := by
  rcases map_eq_ok_iff.mp hRead with ⟨⟨qualifier, name⟩, hParts, hFound⟩
  refine ⟨qualifier, name, hParts, ?_⟩
  rcases Option.or_eq_some_iff.mp hFound with hDirect | ⟨hNone, hWhole⟩
  · rw [Option.ite_none_right_eq_some] at hDirect
    rcases exists_of_toField? hDirect.2 with ⟨field, hFind, rfl⟩
    rw [if_pos ⟨hDirect.1, by rw [hFind]; rfl⟩]
  · rw [Option.ite_none_left_eq_some] at hWhole
    rcases exists_of_toField? hWhole.2 with ⟨field, hFind, rfl⟩
    rw [if_neg]
    rintro ⟨hAccepted, hSome⟩
    rw [if_pos hAccepted, toField?, Option.map_eq_none_iff] at hNone
    rw [hNone] at hSome
    cases hSome

/- Qualifiers are accepted in any letter case. -/
theorem acceptsAny_iff_of_foldCase
    {qualifier qualifier' : Option Text}
    (hSame :
      qualifier'.map Text.foldCase = qualifier.map Text.foldCase) :
    scope.AcceptsAny qualifier' ↔ scope.AcceptsAny qualifier := by
  have hFold
      (q : Option Text) :
      scope.AcceptsAny (q.map Text.foldCase) ↔ scope.AcceptsAny q := by
    cases q with
    | none => exact Iff.rfl
    | some name =>
        have hName : scope.Accepts (Text.foldCase name) ↔
            scope.Accepts name := by
          simp [Scope.Accepts, Text.SameWord]
        simp [Scope.AcceptsAny, hName]
  rw [← hFold qualifier', hSame, hFold]

/- Texts in other letters refer to one field without twins. -/
theorem find?_of_sameWord
    (hNoTwins : schema.NoTwins)
    (hSame : Text.SameWord s t)
    (hRead : ofText? schema scope t = .ok (some reference))
    (hRead' : ofText? schema scope s = .ok (some reference')) :
    schema.find? reference'.name = schema.find? reference.name := by
  rcases exists_of_ofText? hRead with ⟨qualifier, name, hParts, hName⟩
  rcases exists_of_ofText? hRead' with ⟨qualifier', name', hParts', hName'⟩
  rcases Name.sameWord_of_qualified hSame hParts hParts'
    with ⟨hQualifier, hNames⟩
  have hWhole : Text.SameWord (Name.unquote s) (Name.unquote t) := by
    rw [Text.SameWord, Name.foldCase_unquote, Name.foldCase_unquote, hSame]
  simp only [hName, hName', acceptsAny_iff_of_foldCase hQualifier,
    hNoTwins.find?_eq hNames]
  split_ifs
  · exact hNoTwins.find?_eq hNames
  · exact hNoTwins.find?_eq hWhole

end Reference

------------------------------------------------------------
-- Kinds of Expressions
------------------------------------------------------------

namespace Item

variable {schema : Schema}
variable {scope : Scope}
variable {s t : Text}
variable {item own : Item}

/- What a text is read as without a select list, by its kind. -/
inductive Expresses
    (schema : Schema)
    (scope : Scope)
    (t : Text)
    (item : Item) : Prop where
  | aggregate
      (hRead : aggregateCall? schema scope t = .ok (some item))
  | conditional
      (name argument : Text)
      (choice : Choice)
      (hCall : Text.call? t = .ok (some (name, argument)))
      (hOther : AggregateFunction.ofWord? name = none)
      (hItem : item = { source := t, choice := some choice })
  | case
      (choice : Choice)
      (hCall : Text.call? t = .ok none)
      (hCase :
        ((Cursor.ofText t).afterKeyword? "CASE".toList).isSome = true)
      (hItem : item = { source := t, choice := some choice })
  | constant
      (value : Literal)
      (hCall : Text.call? t = .ok none)
      (hCase :
        ((Cursor.ofText t).afterKeyword? "CASE".toList).isSome = false)
      (hLiteral : Literal.ofText? t = some value)
      (hItem : item = ofConstant t value)
  | field
      (reference : Reference)
      (hCall : Text.call? t = .ok none)
      (hCase :
        ((Cursor.ofText t).afterKeyword? "CASE".toList).isSome = false)
      (hLiteral : Literal.ofText? t = none)
      (hRead : Reference.ofText? schema scope t = .ok (some reference))
      (hItem : item = ofReference reference)

theorem aggregateCall?_of_call
    {name argument : Text}
    {function : AggregateFunction}
    (hCall : Text.call? t = .ok (some (name, argument)))
    (hFunction : AggregateFunction.ofWord? name = some function)
    (hRead : readAggregate schema scope t function argument = .ok item) :
    aggregateCall? schema scope t = .ok (some item) := by
  simp only [aggregateCall?, hCall, hFunction, hRead, bind, Except.bind]
  rfl

/- Every expression that is read is of one of the kinds. -/
theorem expresses_of_readExpression
    (hRead : readExpression ⟨schema, scope, none⟩ t = .ok item) :
    Expresses schema scope t item := by
  rcases bind_eq_ok_iff.mp hRead with ⟨call?, hCall, hRest⟩
  split at hRest
  · rename_i name argument
    rw [readCall] at hRest
    split at hRest
    · rename_i function hFunction
      rcases map_eq_ok_iff.mp hRest with ⟨aggregate, hAggregate, rfl⟩
      exact .aggregate (aggregateCall?_of_call hCall hFunction hAggregate)
    · rename_i hOther
      split_ifs at hRest
      rcases isChoiceOf_of_readConditional hRest with ⟨choice, -, hItem⟩
      exact .conditional name argument choice hCall hOther hItem
  · split_ifs at hRest with hCase
    · rcases isChoiceOf_of_readCase hRest with ⟨choice, -, hItem⟩
      exact .case choice hCall hCase hItem
    · rw [Bool.not_eq_true] at hCase
      split at hRest
      · rename_i value hLiteral
        cases hRest
        exact .constant value hCall hCase hLiteral rfl
      · rename_i hLiteral
        rcases bind_eq_ok_iff.mp hRest with ⟨selected?, hNone, hRest⟩
        cases hNone
        rcases map_eq_ok_iff.mp hRest with ⟨reference, hTable, hItem⟩
        rcases bind_eq_ok_iff.mp hTable with ⟨reference?, hFound, hEq⟩
        split at hEq
        · cases hEq
        · cases hEq
          exact
            .field reference hCall hCase hLiteral hFound hItem.symm

/- The item of an aggregate goes by the text. -/
theorem aliasName_of_aggregateCall?
    (hRead : aggregateCall? schema scope t = .ok (some item)) :
    item.aliasName = some t ∧ item.isAggregate = true := by
  rcases exists_call_of_aggregateCall? hRead
    with ⟨name, argument, function, -, -, hAggregate⟩
  refine ⟨?_, isAggregate_of_readAggregate hAggregate⟩
  rcases aggregates_of_readAggregate hAggregate
    with ⟨-, -, rfl⟩ | ⟨_, -, -, rfl⟩
  · rfl
  · rfl

/- An expression that is no choice and no constant. -/
theorem Expresses.aggregate_or_field
    (hText : Expresses schema scope t item)
    (hKind : item.isPlain = true ∨ item.isAggregate = true) :
    aggregateCall? schema scope t = .ok (some item) ∨
      Text.call? t = .ok none ∧
        ((Cursor.ofText t).afterKeyword? "CASE".toList).isSome = false ∧
        Literal.ofText? t = none ∧
        ∃ reference,
          Reference.ofText? schema scope t = .ok (some reference) ∧
            item = ofReference reference := by
  cases hText with
  | aggregate hRead => exact Or.inl hRead
  | conditional name argument choice hCall hOther hItem =>
      subst hItem
      rcases hKind with hPlain | hAggregate
      · cases hPlain
      · cases hAggregate
  | case choice hCall hCase hItem =>
      subst hItem
      rcases hKind with hPlain | hAggregate
      · cases hPlain
      · cases hAggregate
  | constant value hCall hCase hLiteral hItem =>
      subst hItem
      rcases hKind with hPlain | hAggregate
      · cases hPlain
      · cases hAggregate
  | field reference hCall hCase hLiteral hRead hItem =>
      exact Or.inr ⟨hCall, hCase, hLiteral, reference, hRead, hItem⟩

/- What is read as a field is a reference. -/
theorem Expresses.eq_ofReference
    (hText : Expresses schema scope t item)
    (hPlain : item.isPlain = true) :
    ∃ reference, item = ofReference reference := by
  rcases hText.aggregate_or_field (Or.inl hPlain)
    with hCall | ⟨-, -, -, reference, -, hItem⟩
  · have hAggregate := (aliasName_of_aggregateCall? hCall).2
    simp [isPlain, hAggregate] at hPlain
  · exact ⟨reference, hItem⟩

------------------------------------------------------------
-- Other Letters
------------------------------------------------------------

/- A trimmed text is trimmed in any letter case. -/
theorem trim_eq_of_sameWord
    (hTrim : Text.trim t = t)
    (hSame : Text.SameWord s t) :
    Text.trim s = s := by
  have hLength :=
    Text.length_eq_of_sameWord (Text.sameWord_trim hSame)
  rw [hTrim, ← Text.length_eq_of_sameWord hSame] at hLength
  exact (Text.infix_trim s).eq_of_length hLength

/- A call of a trimmed text is a call in any letter case. -/
theorem exists_call?_of_sameWord
    {name argument : Text}
    (hTrim : Text.trim t = t)
    (hSame : Text.SameWord s t)
    (hCall : Text.call? t = .ok (some (name, argument))) :
    ∃ name' argument',
      Text.call? s = .ok (some (name', argument')) ∧
        Text.SameWord name' name ∧
        Text.SameWord argument' argument := by
  rcases Text.exists_isCall hTrim hCall with ⟨gap, hShape⟩
  rcases hShape.of_sameWord hSame
    with ⟨name', gap', argument', hShape', hName, hArgument⟩
  exact ⟨name', argument', hShape'.call?_eq, hName, hArgument⟩

theorem ofWord?_of_sameWord
    {name name' : Text}
    (hSame : Text.SameWord name' name) :
    AggregateFunction.ofWord? name' = AggregateFunction.ofWord? name := by
  simp only [AggregateFunction.ofWord?, Text.SameWord,
    show Text.foldCase name' = Text.foldCase name from hSame]

/- An argument in other letters names the same field. -/
theorem meansSame_of_readAggregate
    {function : AggregateFunction}
    {argument argument' : Text}
    (hNoTwins : schema.NoTwins)
    (hSame : Text.SameWord argument' argument)
    (hRead : readAggregate schema scope t function argument = .ok item)
    (hRead' : readAggregate schema scope s function argument' = .ok own) :
    item.MeansSame schema own := by
  have hInner := Text.sameWord_trim hSame
  have hStar :
      Text.trim argument' = ['*'] ↔ Text.trim argument = ['*'] := by
    constructor
    · intro hText
      rw [hText] at hInner
      exact Text.eq_of_sameWord hInner.symm (by simp)
    · intro hText
      rw [hText] at hInner
      exact Text.eq_of_sameWord hInner (by simp)
  have hSplit := splitDistinct_foldCase (Text.trim argument)
  rw [← hInner, splitDistinct_foldCase, Prod.mk.injEq] at hSplit
  rcases aggregates_of_readAggregate hRead
    with ⟨hRows, -, rfl⟩ | ⟨reference, hField, hFound, rfl⟩
  · rcases aggregates_of_readAggregate hRead'
      with ⟨-, -, rfl⟩ | ⟨reference', hField', -, -⟩
    · exact ⟨rfl, rfl, rfl, rfl, rfl⟩
    · exact absurd (hStar.mpr hRows) hField'
  · rcases aggregates_of_readAggregate hRead'
      with ⟨hRows', -, -⟩ | ⟨reference', -, hFound', rfl⟩
    · exact absurd (hStar.mp hRows') hField
    · exact
        ⟨rfl, rfl, hSplit.1.symm, rfl,
          (Reference.find?_of_sameWord hNoTwins
            (Text.sameWord_trim hSplit.2) hFound hFound').symm⟩

/- Calls in other letters compute the same of the same field. -/
theorem meansSame_of_aggregateCall?
    (hNoTwins : schema.NoTwins)
    (hTrim : Text.trim t = t)
    (hSame : Text.SameWord s t)
    (hRead : aggregateCall? schema scope t = .ok (some item))
    (hRead' : aggregateCall? schema scope s = .ok (some own)) :
    item.MeansSame schema own := by
  rcases exists_call_of_aggregateCall? hRead
    with ⟨name, argument, function, hCall, hFunction, hAggregate⟩
  rcases exists_call_of_aggregateCall? hRead'
    with ⟨name', argument', function', hCall', hFunction', hAggregate'⟩
  rcases exists_call?_of_sameWord hTrim hSame hCall
    with ⟨_, _, hOther, hName, hArgument⟩
  rw [hCall'] at hOther
  cases hOther
  rw [ofWord?_of_sameWord hName, hFunction] at hFunction'
  cases hFunction'
  exact
    meansSame_of_readAggregate hNoTwins hArgument hAggregate hAggregate'

/-
  A text that is a field or an aggregate in one letter case is
  one in every other that is read. Its kind is told by what
  has no letter case.
-/
theorem Expresses.plain_or_aggregate
    (hTrim : Text.trim t = t)
    (hSame : Text.SameWord s t)
    (hText : Expresses schema scope t item)
    (hOther : Expresses schema scope s own)
    (hKind : own.isPlain = true ∨ own.isAggregate = true) :
    (item.isPlain = true ∧ own.isPlain = true) ∨
      aggregateCall? schema scope t = .ok (some item) ∧
        aggregateCall? schema scope s = .ok (some own) := by
  have hTrim' := trim_eq_of_sameWord hTrim hSame
  rcases hOther.aggregate_or_field hKind
    with hAggregate | ⟨hNoCall, hNoCase, hNoLiteral, _, -, hField⟩
  · rcases exists_call_of_aggregateCall? hAggregate
      with ⟨name', _, function, hCall', hFunction, -⟩
    rcases exists_call?_of_sameWord hTrim' hSame.symm hCall'
      with ⟨name, argument, hCall, hName, -⟩
    rw [← ofWord?_of_sameWord hName] at hFunction
    cases hText with
    | aggregate hRead => exact Or.inr ⟨hRead, hAggregate⟩
    | conditional _ _ choice hOtherCall hNone hItem =>
        rw [hCall] at hOtherCall
        cases hOtherCall
        rw [hNone] at hFunction
        cases hFunction
    | case choice hNone hCase hItem =>
        rw [hCall] at hNone
        cases hNone
    | constant value hNone hCase hLiteral hItem =>
        rw [hCall] at hNone
        cases hNone
    | field reference hNone hCase hLiteral hRead hItem =>
        rw [hCall] at hNone
        cases hNone
  · have hNone
        {name argument : Text}
        (hCall : Text.call? t = .ok (some (name, argument))) :
        False := by
      rcases exists_call?_of_sameWord hTrim hSame hCall
        with ⟨_, _, hCall', -, -⟩
      rw [hNoCall] at hCall'
      cases hCall'
    cases hText with
    | aggregate hRead =>
        rcases exists_call_of_aggregateCall? hRead
          with ⟨_, _, _, hCall, -, -⟩
        exact (hNone hCall).elim
    | conditional _ _ choice hCall hFunction hItem =>
        exact (hNone hCall).elim
    | case choice hCall hCase hItem =>
        rw [Cursor.isSome_afterKeyword?_of_sameWord _ hSame, hCase]
          at hNoCase
        cases hNoCase
    | constant value hCall hCase hLiteral hItem =>
        have hSome := Literal.isSome_ofText?_of_sameWord hSame
        rw [hNoLiteral, hLiteral] at hSome
        cases hSome
    | field reference hCall hCase hLiteral hRead hItem =>
        subst hItem hField
        exact Or.inl ⟨rfl, rfl⟩

end Item

end SqlSelect
