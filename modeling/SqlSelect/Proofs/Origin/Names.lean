import SqlSelect.Proofs.Range.Safety
import SqlSelect.Proofs.Recall.Trees

/-
  Where the names in a condition come from. Whatever an
  operand looks like, its name is that of a field of the
  table or of a column of the select list, and every name in
  a condition is the name of an operand.

  Main statements:
    * `Reference.resolves_of_ofText?`
    * `Environment.names_of_fieldName`
    * `Predicate.refersTo_of_ofText`
    * `Condition.refersTo_of_ofText`
-/

namespace SqlSelect

------------------------------------------------------------
-- Fields
------------------------------------------------------------

namespace Schema

/- The name is found among the fields. -/
def Has
    (schema : Schema)
    (name : Text) : Prop :=
  (schema.find? name).isSome = true

instance
    (schema : Schema)
    (name : Text) :
    Decidable (schema.Has name) := by
  unfold Has
  infer_instance

/- What is found is a field of the name, in any letter case. -/
theorem mem_of_find?
    {schema : Schema}
    {name : Text}
    {field : Field}
    (hFind : schema.find? name = some field) :
    field ∈ schema.fields ∧ Text.SameWord field.name name := by
  rw [find?, Option.or_eq_some_iff] at hFind
  rcases hFind with hExact | ⟨-, hFolded⟩
  · have hName := List.find?_some hExact
    rw [beq_iff_eq] at hName
    exact ⟨List.mem_of_find?_eq_some hExact, congrArg _ hName⟩
  · have hName := List.find?_some hFolded
    exact ⟨List.mem_of_find?_eq_some hFolded, of_decide_eq_true hName⟩

end Schema

------------------------------------------------------------
-- References
------------------------------------------------------------

namespace Reference

/-
  The reference is to a field of the table, and is qualified
  with one of the names of the table or not at all.
-/
structure Resolves
    (schema : Schema)
    (scope : Scope)
    (reference : Reference) : Prop where
  found :
    ∃ field,
      schema.find? reference.name = some field ∧
        field.type = reference.type
  accepted : scope.AcceptsAny reference.qualifier

theorem exists_of_toField?
    {schema : Schema}
    {qualifier : Option Text}
    {name : Text}
    {reference : Reference}
    (hField : toField? schema qualifier name = some reference) :
    ∃ field,
      schema.find? name = some field ∧
        reference = ⟨qualifier, name, field.type⟩ := by
  rcases Option.map_eq_some_iff.mp hField with ⟨field, hFind, hEq⟩
  exact ⟨field, hFind, hEq.symm⟩

/-
  The reference that a text makes resolves. One to a field
  with a point in its name has lost its qualifier.
-/
theorem resolves_of_ofText?
    {schema : Schema}
    {scope : Scope}
    {t : Text}
    {reference : Reference}
    (hRead : ofText? schema scope t = .ok (some reference)) :
    reference.Resolves schema scope := by
  rcases map_eq_ok_iff.mp hRead with ⟨⟨qualifier, name⟩, -, hFound⟩
  rcases Option.or_eq_some_iff.mp hFound with hDirect | ⟨-, hWhole⟩
  · rw [Option.ite_none_right_eq_some] at hDirect
    rcases hDirect with ⟨hAccepted, hField⟩
    rcases exists_of_toField? hField with ⟨field, hFind, rfl⟩
    exact ⟨⟨field, hFind, rfl⟩, hAccepted⟩
  · rw [Option.ite_none_left_eq_some] at hWhole
    rcases exists_of_toField? hWhole.2 with ⟨field, hFind, rfl⟩
    exact ⟨⟨field, hFind, rfl⟩, rfl⟩

theorem Resolves.has
    {schema : Schema}
    {scope : Scope}
    {reference : Reference}
    (hResolves : reference.Resolves schema scope) :
    schema.Has reference.name := by
  rcases hResolves.found with ⟨field, hFind, -⟩
  rw [Schema.Has, hFind]
  rfl

end Reference

------------------------------------------------------------
-- Operands
------------------------------------------------------------

namespace Environment

variable {env : Environment}
variable {t name : Text}
variable {item : Item}

/- The item stands in the select list. -/
def Selects
    (env : Environment)
    (item : Item) : Prop :=
  ∃ list, env.selected = some list ∧ item ∈ list.items

/-
  The name is that of a column of the select list, or that of
  a field of the table.
-/
def Names
    (env : Environment)
    (name : Text) : Prop :=
  (∃ item, env.Selects item ∧ item.columnName = name) ∨
    env.schema.Has name

theorem mem_of_itemListFind?
    {list : ItemList}
    (hFind : list.find? name = some item) :
    item ∈ list.items := by
  rcases Option.or_eq_some_iff.mp hFind with hAlias | ⟨-, hSource⟩
  · exact List.mem_of_find?_eq_some hAlias
  · exact List.mem_of_find?_eq_some hSource

theorem selects_of_selected?
    (hFound : env.selected? name = some item) :
    env.Selects item := by
  rcases Option.bind_eq_some_iff.mp hFound with ⟨list, hList, hFind⟩
  exact ⟨list, hList, mem_of_itemListFind? hFind⟩

theorem selects_of_selectedField?
    (hFound : env.selectedField? t = .ok (some item)) :
    env.Selects item := by
  rw [selectedField?] at hFound
  split at hFound
  · exact absurd hFound (by simp)
  · rename_i list hList
    rcases map_eq_ok_iff.mp hFound with ⟨name?, -, hName⟩
    rcases Option.bind_eq_some_iff.mp hName with ⟨name, -, hFind⟩
    exact ⟨list, hList, mem_of_itemListFind? hFind⟩

theorem selects_of_selectedAggregate?
    (hFound : env.selectedAggregate? t = .ok (some item)) :
    env.Selects item := by
  rw [selectedAggregate?] at hFound
  split at hFound
  · exact absurd hFound (by simp)
  · rename_i list hList
    rcases bind_eq_ok_iff.mp hFound with ⟨call?, -, hCall⟩
    split at hCall
    · exact absurd hCall (by simp)
    · split at hCall
      · exact absurd hCall (by simp)
      · rename_i found hFind
        cases hCall
        exact ⟨list, hList, List.mem_of_find?_eq_some hFind⟩

theorem resolves_of_tableField
    {reference : Reference}
    (hRead : env.tableField t = .ok reference) :
    reference.Resolves env.schema env.scope := by
  rcases bind_eq_ok_iff.mp hRead with ⟨reference?, hRef, hFound⟩
  split at hFound
  · exact absurd hFound (by simp)
  · cases hFound
    exact Reference.resolves_of_ofText? hRef

/- Every way of resolving an operand ends at such a name. -/
theorem names_of_fieldName
    (hRead : env.fieldName t = .ok name) :
    env.Names name := by
  rw [fieldName] at hRead
  split at hRead
  · rename_i item hItem
    exact .inl ⟨item, selects_of_selected? hItem, Except.ok.inj hRead⟩
  · rcases bind_eq_ok_iff.mp hRead with ⟨aggregate?, hAggregate, hRest⟩
    split at hRest
    · rename_i item
      exact
        .inl ⟨item, selects_of_selectedAggregate? hAggregate,
          Except.ok.inj hRest⟩
    · rcases bind_eq_ok_iff.mp hRest with ⟨field?, hField, hLast⟩
      split at hLast
      · rename_i item
        exact
          .inl ⟨item, selects_of_selectedField? hField,
            Except.ok.inj hLast⟩
      · rcases map_eq_ok_iff.mp hLast with ⟨reference, hTable, rfl⟩
        exact .inr (resolves_of_tableField hTable).has

/- Without a select list only fields of the table have names. -/
theorem Names.has
    (hNames : env.Names name)
    (hNone : env.selected = none) :
    env.schema.Has name := by
  rcases hNames with ⟨item, ⟨list, hList, -⟩, -⟩ | hHas
  · rw [hNone] at hList
    exact absurd hList (by simp)
  · exact hHas

end Environment

------------------------------------------------------------
-- Predicates
------------------------------------------------------------

namespace Predicate

variable {env : Environment}
variable {predicate left : Text}
variable {comparison : Comparison}
variable {s : Cursor}
variable {p : Predicate}

/-
  Both sides of the predicate refer to such names, as far as
  they refer to anything. A parameter has a name of its own.
-/
def RefersTo
    (names : Text → Prop)
    (p : Predicate) : Prop :=
  (p.comparison ≠ .parameter → names p.left) ∧
    ∀ field, p.rightField = some field → names field

theorem RefersTo.mono
    {names names' : Text → Prop}
    (hRefers : p.RefersTo names)
    (hNames : ∀ name, names name → names' name) :
    p.RefersTo names' :=
  ⟨fun hOther => hNames _ (hRefers.1 hOther),
    fun field hField => hNames _ (hRefers.2 field hField)⟩

/- A field on the right is what an operand refers to. -/
theorem names_of_readRight
    {rest field : Text}
    (hRead : readRight env predicate left comparison rest = .ok p)
    (hField : p.rightField = some field) :
    env.Names field := by
  rw [readRight] at hRead
  simp only at hRead
  split_ifs at hRead
  split at hRead
  · cases hRead
    exact absurd hField (by simp [bare])
  · rcases bind_eq_ok_iff.mp hRead with ⟨words, -, hRest⟩
    split_ifs at hRest
    rcases map_eq_ok_iff.mp hRest with ⟨found, hFound, rfl⟩
    cases hField
    exact Environment.names_of_fieldName hFound

theorem rightField_of_readNullTest
    (hRead : readNullTest predicate left s = .ok p) :
    p.rightField = none := by
  rw [readNullTest] at hRead
  simp only at hRead
  split at hRead
  · exact absurd hRead (by simp)
  · rcases map_eq_ok_iff.mp hRead with ⟨-, -, rfl⟩
    rfl

theorem rightField_of_readList
    (hRead : readList predicate left s = .ok p) :
    p.rightField = none := by
  rw [readList] at hRead
  simp only at hRead
  split_ifs at hRead
  rcases bind_eq_ok_iff.mp hRead with ⟨⟨interior, after⟩, -, hRest⟩
  rcases bind_eq_ok_iff.mp hRest with ⟨-, -, hRest⟩
  rcases bind_eq_ok_iff.mp hRest with ⟨values, -, hEq⟩
  cases hEq
  rfl

theorem names_of_readWordComparison
    {field : Text}
    (hRead : readWordComparison env predicate left s = .ok p)
    (hField : p.rightField = some field) :
    env.Names field := by
  rw [readWordComparison] at hRead
  simp only at hRead
  split_ifs at hRead
  · rw [rightField_of_readNullTest hRead] at hField
    exact absurd hField (by simp)
  · rw [rightField_of_readList hRead] at hField
    exact absurd hField (by simp)
  · split at hRead <;> exact absurd hRead (by simp)
  · split at hRead
    · exact absurd hRead (by simp)
    · exact names_of_readRight hRead hField

theorem names_of_readComparison
    {field : Text}
    (hRead : readComparison env predicate left s = .ok p)
    (hField : p.rightField = some field) :
    env.Names field := by
  rw [readComparison] at hRead
  split at hRead
  · exact names_of_readWordComparison hRead hField
  · split at hRead
    · exact absurd hRead (by simp)
    · exact names_of_readRight hRead hField

theorem refersTo_of_readParameter
    (names : Text → Prop)
    (hRead : readParameter predicate s = .ok p) :
    p.RefersTo names := by
  rcases bind_eq_ok_iff.mp hRead with ⟨⟨interior, after⟩, -, hRest⟩
  rcases bind_eq_ok_iff.mp hRest with ⟨name, -, hRest⟩
  rcases bind_eq_ok_iff.mp hRest with ⟨sign, -, hRest⟩
  rcases bind_eq_ok_iff.mp hRest with ⟨value, -, hEq⟩
  cases hEq
  exact
    ⟨fun hOther => absurd rfl hOther,
      fun field hField => absurd hField (by simp [bare])⟩

/- What is read as a predicate refers to what operands name. -/
theorem refersTo_of_ofText
    {t : Text}
    (hRead : ofText env t = .ok p) :
    p.RefersTo env.Names := by
  rw [ofText] at hRead
  split_ifs at hRead
  split at hRead
  · exact refersTo_of_readParameter _ hRead
  · rcases bind_eq_ok_iff.mp hRead with ⟨operand, -, hRest⟩
    split_ifs at hRest
    rcases bind_eq_ok_iff.mp hRest with ⟨left, hLeft, hComparison⟩
    have hCompares := compares_of_readComparison hComparison
    refine ⟨fun _ => ?_, fun field hField => ?_⟩
    · rw [hCompares.left_eq]
      exact Environment.names_of_fieldName hLeft
    · exact names_of_readComparison hComparison hField

end Predicate

------------------------------------------------------------
-- Parts of a Text
------------------------------------------------------------

theorem Cut.infix_of_mem_pieces
    {cut : Cut}
    {piece : Text}
    (hMem : piece ∈ cut.pieces) :
    piece <:+: cut.text := by
  rcases List.mem_cons.mp hMem with rfl | hMem
  · exact (List.prefix_append _ _).isInfix
  · rcases List.mem_map.mp hMem with ⟨part, hPart, rfl⟩
    have hIn :
        part.1 ++ part.2 <:+: cut.tail.flatMap fun p => p.1 ++ p.2 :=
      List.infix_of_mem_flatten (List.mem_map_of_mem hPart)
    exact
      ((List.suffix_append part.1 part.2).isInfix.trans hIn).trans
        (List.suffix_append cut.head _).isInfix

theorem Text.infix_trim
    (t : Text) :
    trim t <:+: t := by
  rcases exists_blanks_trim t with ⟨b, b', -, -, hText⟩
  exact ⟨b, b', hText.symm⟩

/- What stands in the parentheses of a text stands in the text. -/
theorem Text.infix_of_enclosed?
    {t interior : Text}
    (hEnclosed : enclosed? t = .ok (some interior)) :
    interior <:+: t := by
  rcases exists_cuts_enclosed? hEnclosed with ⟨after, -, hCuts⟩
  rcases hCuts.exists_split with ⟨front, behind, hText, -, -⟩
  exact ⟨front, behind, hText.symm⟩

------------------------------------------------------------
-- Conditions
------------------------------------------------------------

namespace Condition

variable {env : Environment}
variable {t : Text}
variable {c : Condition}

theorem infix_of_mem_layout
    {parts : List Text}
    {part : Text}
    (hBalanced : Text.Balanced t)
    (hParts : parts ∈ layout t)
    (hMem : part ∈ parts) :
    part <:+: t := by
  rcases List.mem_map.mp hParts with ⟨piece, hPiece, rfl⟩
  rcases List.mem_map.mp hMem with ⟨inner, hInner, rfl⟩
  have hPieceBalanced :=
    Text.balanced_of_mem_pieces (by simpa using isLetters_or) hBalanced
      hPiece
  have hOuter := Cut.infix_of_mem_pieces hPiece
  have hBetween := Cut.infix_of_mem_pieces hInner
  rw [Text.text_cutOf _ hBalanced] at hOuter
  rw [Text.text_cutOf _ hPieceBalanced] at hBetween
  exact ((Text.infix_trim inner).trans hBetween).trans hOuter

/- Leading NOTs are moved over, by the recursion over them. -/
theorem precedes_afterNots
    (s : Cursor) :
    s.Precedes (afterNots s).2 := by
  fun_induction afterNots s with
  | case1 s hNone => exact ⟨rfl, List.suffix_refl _⟩
  | case2 s after hAfter hLess negated rest hNots ih =>
      rw [hNots] at ih
      exact (Cursor.precedes_afterKeyword? hAfter).trans ih

theorem infix_bare
    (t : Text) :
    (bare t).2 <:+: t := by
  have hRest : (stripNots (Text.trim t)).2 <:+ Text.trim t :=
    (precedes_afterNots (Cursor.ofText (Text.trim t))).2
  exact
    ((Text.infix_trim _).trans hRest.isInfix).trans (Text.infix_trim t)

/- A predicate of a tree stands in one of the parts of its text. -/
theorem exists_readPart_of_mem_predicates
    {allowance : Nat}
    {p : Predicate}
    (hRead : readNested env allowance t = .ok c)
    (hMem : p ∈ c.predicates) :
    ∃ part u,
      part <:+: t ∧
        readPart env (within env allowance) part = .ok u ∧
        p ∈ u.predicates := by
  have hBalanced := balanced_of_readNested hRead
  rcases (readNested_eq_ok_iff hBalanced).mp hRead with
    ⟨rows, hReads, rfl⟩
  rw [predicates_ofRows] at hMem
  rcases List.mem_flatMap.mp hMem with ⟨u, hUnit, hIn⟩
  rcases List.mem_flatten.mp hUnit with ⟨row, hRow, hMemRow⟩
  rcases exists_of_mem_forall₂ hReads hRow with
    ⟨texts, hTexts, hRowReads⟩
  rcases exists_of_mem_forall₂ hRowReads hMemRow with
    ⟨part, hPartMem, hPart⟩
  exact
    ⟨part, u, infix_of_mem_layout hBalanced hTexts hPartMem, hPart, hIn⟩

/-
  Every predicate of a tree is read from a part of the text of
  its own, by induction on the parentheses that may be open.
-/
theorem exists_ofText_of_readNested
    {allowance : Nat}
    (hRead : readNested env allowance t = .ok c) :
    ∀ p ∈ c.predicates,
      ∃ u, u <:+: t ∧ Predicate.ofText env u = .ok p := by
  induction allowance generalizing t c with
  | zero =>
      intro p hMem
      rcases exists_readPart_of_mem_predicates hRead hMem
        with ⟨part, u, hInfix, hPart, hIn⟩
      rcases (readPart_eq_ok_iff.mp hPart).2 with
        ⟨-, q, hPredicate, rfl⟩ | ⟨-, deeper, -, -, -, hSome, -, -⟩
      · cases List.mem_singleton.mp hIn
        exact ⟨_, (infix_bare part).trans hInfix, hPredicate⟩
      · exact absurd hSome (by simp [within])
  | succ allowance ih =>
      intro p hMem
      rcases exists_readPart_of_mem_predicates hRead hMem
        with ⟨part, u, hInfix, hPart, hIn⟩
      rcases (readPart_eq_ok_iff.mp hPart).2 with
        ⟨-, q, hPredicate, rfl⟩ |
          ⟨inner, deeper, d, hEnclosed, -, hSome, hInner, rfl⟩
      · cases List.mem_singleton.mp hIn
        exact ⟨_, (infix_bare part).trans hInfix, hPredicate⟩
      · cases hSome
        rw [predicates_enclosed] at hIn
        rcases ih hInner p hIn with ⟨w, hWord, hPredicate⟩
        have hBetween := Text.infix_of_enclosed? hEnclosed
        exact
          ⟨w, ((hWord.trans hBetween).trans (infix_bare part)).trans
            hInfix, hPredicate⟩

/- What is read as a condition refers to what operands name. -/
theorem refersTo_of_ofText
    (hRead : ofText env t = .ok c) :
    ∀ p ∈ c.predicates, p.RefersTo env.Names := by
  intro p hMem
  rw [ofText] at hRead
  split_ifs at hRead
  · cases hRead
    exact absurd hMem List.not_mem_nil
  · rcases exists_ofText_of_readNested hRead p hMem
      with ⟨u, -, hPredicate⟩
    exact Predicate.refersTo_of_ofText hPredicate

end Condition

end SqlSelect
