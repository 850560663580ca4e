import SqlSelect.Proofs.Selection.Expressions

/-
  The kinds of the items of a list. Every item that is read is
  an aggregate, a constant, a choice or a plain field, and only
  one of these, so the items of each kind divide the list among
  them. What an item says besides fits its kind. Items that are
  taken from a select list are no exception, since they were
  read for that list in the same way.

  Main statements:
    * `Item.IsProper`
    * `Item.isProper_of_readExpression`
    * `Item.isProper_of_readItem`
    * `ItemList.IsSelectList`
    * `ItemList.perm_flatMap_ofKind`
    * `ItemList.proper_and_divided`
-/

namespace SqlSelect

------------------------------------------------------------
-- Proper Items
------------------------------------------------------------

namespace Item

/-
  The item is of one kind, and what it says besides fits this
  kind. It has a direction if it is one of an order.
-/
structure IsProper
    (ordered : Bool)
    (item : Item) : Prop where
  kind : ∃! kind, item.isOf kind = true
  rowCount :
    item.countsRows = true →
      item.function = some .count ∧ item.source = ['*'] ∧
        item.type = none ∧ item.distinct = false
  distinct : item.distinct = true → item.isAggregate = true
  aliased : item.isAggregate = true → item.aliasName.isSome = true
  constant :
    ∀ value, item.constant = some value →
      item.type.map FieldType.category = some value.category
  choice : item.isChoice = true → item.type = none
  direction : item.direction.isSome = ordered

variable {env : Environment}
variable {ordered : Bool}
variable {expression name argument t : Text}
variable {function : AggregateFunction}
variable {item : Item}

/- Every item may be given an alias. -/
theorem IsProper.withAlias
    (hProper : item.IsProper ordered)
    (aliasName : Option Text) :
    (item.withAlias aliasName).IsProper ordered := by
  cases aliasName with
  | none => exact hProper
  | some aliasName => exact { hProper with aliased := fun _ => rfl }

/- Every item may be given a direction, as in an order. -/
theorem IsProper.withDirection
    (hProper : item.IsProper false)
    (direction : Option Direction) :
    (item.withDirection direction).IsProper direction.isSome := by
  cases direction with
  | none => exact hProper
  | some direction => exact { hProper with direction := rfl }

------------------------------------------------------------
-- Fields, Constants and Choices
------------------------------------------------------------

theorem isProper_ofReference
    (reference : Reference) :
    (ofReference reference).IsProper false where
  kind := ⟨.plain, rfl, by rintro ⟨⟩ ⟨⟩; rfl⟩
  rowCount := nofun
  distinct := nofun
  aliased := nofun
  constant := nofun
  choice := nofun
  direction := rfl

/- The type of a constant is that of its value. -/
theorem isProper_ofConstant
    (expression : Text)
    (value : Literal) :
    (ofConstant expression value).IsProper false where
  kind := ⟨.constant, rfl, by rintro ⟨⟩ ⟨⟩; rfl⟩
  rowCount := nofun
  distinct := nofun
  aliased := nofun
  constant := by rintro _ ⟨⟩; rfl
  choice := nofun
  direction := rfl

/- Nothing is known of the type of a choice. -/
theorem IsChoiceOf.isProper
    (hChoice : item.IsChoiceOf env expression) :
    item.IsProper false := by
  rcases hChoice with ⟨choice, -, rfl⟩
  exact
    { kind := ⟨.choice, rfl, by rintro ⟨⟩ ⟨⟩; rfl⟩
      rowCount := nofun
      distinct := nofun
      aliased := nofun
      constant := nofun
      choice := fun _ => rfl
      direction := rfl }

/- Each field that a star stands for is a plain field. -/
theorem isProper_of_mem_allFields
    {schema : Schema}
    {qualifier : Option Text}
    (hMem : item ∈ allFields schema qualifier) :
    item.IsProper false := by
  rcases List.mem_map.mp hMem with ⟨field, -, rfl⟩
  exact isProper_ofReference _

------------------------------------------------------------
-- Aggregates
------------------------------------------------------------

/- An aggregate under an alias is neither constant nor choice. -/
theorem isProper_of_isAggregate
    (hAggregate : item.isAggregate = true)
    (hAlias : item.aliasName.isSome = true)
    (hConstant : item.constant = none)
    (hChoice : item.choice = none)
    (hDirection : item.direction = none)
    (hRows :
      item.countsRows = true →
        item.function = some .count ∧ item.source = ['*'] ∧
          item.type = none ∧ item.distinct = false) :
    item.IsProper false := by
  have hNotChoice : item.isChoice = false := by
    rw [isChoice, hChoice, Option.isSome_none]
  refine
    { kind := ⟨.aggregate, hAggregate, fun kind hIs => ?_⟩
      rowCount := hRows
      distinct := fun _ => hAggregate
      aliased := fun _ => hAlias
      constant := fun value hSome => ?_
      choice := fun hIs => absurd hIs (by simp [hNotChoice])
      direction := by rw [hDirection, Option.isSome_none] }
  · cases kind with
    | aggregate => rfl
    | constant => simp [isOf, isConstant, hConstant] at hIs
    | choice => simp [isOf, hNotChoice] at hIs
    | plain => simp [isOf, isPlain, hAggregate] at hIs
  · rw [hConstant] at hSome
    cases hSome

/- Only a number of rows is an aggregate without a field. -/
theorem isProper_of_readAggregate
    (hRead :
      readAggregate env.schema env.scope expression function argument =
        .ok item) :
    item.IsProper false := by
  rcases aggregates_of_readAggregate hRead
    with ⟨-, hCount, rfl⟩ | ⟨reference, -, -, rfl⟩
  · exact
      isProper_of_isAggregate rfl rfl rfl rfl rfl fun _ =>
        ⟨congrArg some hCount, rfl, rfl, rfl⟩
  · exact
      isProper_of_isAggregate rfl rfl rfl rfl rfl fun hRows =>
        absurd hRows Bool.false_ne_true

------------------------------------------------------------
-- Expressions
------------------------------------------------------------

/- The aggregate is the one of the text, or one selected. -/
theorem isProper_of_readSelectedAggregate
    (hSelected : ∀ item, env.Selects item → item.IsProper false)
    (hRead :
      readSelectedAggregate env expression function argument =
        .ok item) :
    item.IsProper false := by
  rcases map_eq_ok_iff.mp hRead with ⟨aggregate, hAggregate, rfl⟩
  cases hFound :
      env.selected.bind fun list => list.findAggregate? aggregate with
  | none => exact isProper_of_readAggregate hAggregate
  | some found =>
      rcases Option.bind_eq_some_iff.mp hFound with ⟨list, hList, hFind⟩
      exact
        hSelected found ⟨list, hList, List.mem_of_find?_eq_some hFind⟩

theorem isProper_of_readCall
    (hSelected : ∀ item, env.Selects item → item.IsProper false)
    (hRead : readCall env expression name argument = .ok item) :
    item.IsProper false := by
  rw [readCall] at hRead
  split at hRead
  · exact isProper_of_readSelectedAggregate hSelected hRead
  · split_ifs at hRead
    exact (isChoiceOf_of_readConditional hRead).isProper

theorem isProper_of_readField
    (hSelected : ∀ item, env.Selects item → item.IsProper false)
    (hRead : readField env expression = .ok item) :
    item.IsProper false := by
  rcases bind_eq_ok_iff.mp hRead with ⟨selected?, hFound, hRest⟩
  split at hRest
  · cases hRest
    exact
      hSelected item (Environment.selects_of_selectedField? hFound)
  · rcases map_eq_ok_iff.mp hRest with ⟨reference, -, rfl⟩
    exact isProper_ofReference reference

/- Whatever an expression looks like, its item is proper. -/
theorem isProper_of_readExpression
    (hSelected : ∀ item, env.Selects item → item.IsProper false)
    (hRead : readExpression env expression = .ok item) :
    item.IsProper false := by
  rcases bind_eq_ok_iff.mp hRead with ⟨call?, -, hRest⟩
  split at hRest
  · exact isProper_of_readCall hSelected hRest
  · split_ifs at hRest
    · exact (isChoiceOf_of_readCase hRest).isProper
    · split at hRest
      · cases hRest
        exact isProper_ofConstant expression _
      · exact isProper_of_readField hSelected hRest

------------------------------------------------------------
-- Pieces of a List
------------------------------------------------------------

theorem isProper_of_readAliased
    {aliasName : Option Text}
    {items : List Item}
    (hSelected : ∀ item, env.Selects item → item.IsProper false)
    (hRead : readAliased env expression aliasName = .ok items) :
    ∀ item ∈ items, item.IsProper false := by
  intro item hMem
  rcases cases_of_readAliased hRead
    with ⟨qualifier, -, -, rfl⟩ | ⟨-, own, rfl, hOwn⟩
  · exact isProper_of_mem_allFields hMem
  · cases List.mem_singleton.mp hMem
    have hProper : own.IsProper false := by
      rcases hOwn with hFound | ⟨-, hExpression⟩
      · exact hSelected own (Environment.selects_of_selected? hFound)
      · exact isProper_of_readExpression hSelected hExpression
    exact hProper.withAlias aliasName

/- The items of a piece are proper once they have directions. -/
theorem isProper_of_readItem
    {items : List Item}
    (hSelected : ∀ item, env.Selects item → item.IsProper false)
    (hRead : readItem env ordered t = .ok items) :
    ∀ item ∈ items, item.IsProper ordered := by
  rcases exists_readAliased_of_readItem hRead
    with ⟨expression, aliasName, plain, -, hPlain, hDirection, rfl⟩
  intro item hMem
  rcases List.mem_map.mp hMem with ⟨own, hOwn, rfl⟩
  have hProper := isProper_of_readAliased hSelected hPlain own hOwn
  have hDirected := hProper.withDirection (endDirection? ordered t)
  rwa [hDirection] at hDirected

end Item

------------------------------------------------------------
-- Lists
------------------------------------------------------------

namespace ItemList

variable {env : Environment}
variable {ordered : Bool}
variable {t : Text}
variable {list : ItemList}

theorem isProper_of_ofText
    (hSelected : ∀ item, env.Selects item → item.IsProper false)
    (hRead : ofText env ordered t = .ok list) :
    ∀ item ∈ list.items, item.IsProper ordered := by
  intro item hMem
  rcases rows_of_ofText hRead with ⟨texts, rows, -, hItems, hRows⟩
  rw [hItems] at hMem
  rcases List.mem_flatten.mp hMem with ⟨row, hRow, hIn⟩
  rcases Condition.exists_of_mem_forall₂ hRows hRow with ⟨piece, -, hPiece⟩
  exact Item.isProper_of_readItem hSelected hPiece item hIn

/-
  The list was read as a select list, whatever its fields and
  the select list that it could refer to itself.
-/
inductive IsSelectList : ItemList → Prop where
  | read
      (env : Environment)
      (t : Text)
      (list : ItemList)
      (hSelected :
        ∀ selected, env.selected = some selected →
          IsSelectList selected)
      (hRead : ofText env false t = .ok list) :
      IsSelectList list

/- Along the select lists that were read, all items are proper. -/
theorem IsSelectList.isProper
    (hList : list.IsSelectList) :
    ∀ item ∈ list.items, item.IsProper false := by
  induction hList with
  | read env t list hSelected hRead ih =>
      refine isProper_of_ofText ?_ hRead
      rintro item ⟨selected, hEq, hMem⟩
      exact ih selected hEq item hMem

theorem count_ofKind
    (item : Item)
    (kind : Item.Kind) :
    (list.ofKind kind).count item =
      if item.isOf kind then list.items.count item else 0 := by
  split_ifs with hIs
  · exact List.count_filter hIs
  · exact
      List.count_eq_zero.mpr fun hMem =>
        hIs (List.mem_filter.mp hMem).2

/- Items of one kind each are divided among the kinds. -/
theorem perm_flatMap_ofKind
    (hKind : ∀ item ∈ list.items, ∃! kind, item.isOf kind = true) :
    (Item.Kind.all.flatMap list.ofKind).Perm list.items := by
  rw [List.perm_iff_count]
  intro item
  simp only [Item.Kind.all, List.flatMap_cons, List.flatMap_nil,
    List.append_nil, List.count_append, count_ofKind]
  by_cases hMem : item ∈ list.items
  · rcases hKind item hMem with ⟨kind, hIs, hOnly⟩
    have hOther (other : Item.Kind) :
        item.isOf other = decide (other = kind) := by
      rw [Bool.eq_iff_iff, decide_eq_true_eq]
      exact ⟨hOnly other, fun hEq => hEq ▸ hIs⟩
    simp only [hOther, decide_eq_true_eq]
    cases kind <;> simp
  · simp [List.count_eq_zero.mpr hMem]

/- No item is of two kinds. -/
theorem disjoint_ofKind
    {kind other : Item.Kind}
    (hKind : ∀ item ∈ list.items, ∃! kind, item.isOf kind = true)
    (hNe : kind ≠ other) :
    (list.ofKind kind).Disjoint (list.ofKind other) := by
  intro item hMem hOther
  rcases List.mem_filter.mp hMem with ⟨hItem, hIs⟩
  exact hNe ((hKind item hItem).unique hIs (List.mem_filter.mp hOther).2)

/-
  The items of a list, with a select list that was read or
  without any, are proper, and the kinds divide the list.
-/
theorem proper_and_divided
    (hSelected :
      ∀ selected, env.selected = some selected →
        selected.IsSelectList)
    (hRead : ofText env ordered t = .ok list) :
    (∀ item ∈ list.items, item.IsProper ordered) ∧
      (Item.Kind.all.flatMap list.ofKind).Perm list.items ∧
      ∀ kind other, kind ≠ other →
        (list.ofKind kind).Disjoint (list.ofKind other) := by
  have hProper : ∀ item ∈ list.items, item.IsProper ordered := by
    refine isProper_of_ofText ?_ hRead
    rintro item ⟨selected, hEq, hMem⟩
    exact (hSelected selected hEq).isProper item hMem
  have hKind := fun item hMem => (hProper item hMem).kind
  exact
    ⟨hProper, perm_flatMap_ofKind hKind,
      fun kind other hNe => disjoint_ofKind hKind hNe⟩

/- A table of strings, with a select list or without any. -/
def stringTable
    (selected : Option ItemList) : Environment :=
  ⟨⟨[⟨"A".toList, .ofCategory .string⟩]⟩, ⟨none, none⟩, selected⟩

/- An order of items of every kind, two of them selected. -/
theorem proper_and_divided_selected :
    ∃ selected list,
      ofText (stringTable none) false "COUNT(*) n, A".toList =
          .ok selected ∧
        ofText (stringTable (some selected)) true
            "n DESC, A, 1, IIF(A = 'x', 1, 2)".toList = .ok list ∧
        list.items.map (fun item => Item.Kind.all.map item.isOf) =
          [ [true, false, false, false]
          , [false, false, false, true]
          , [false, true, false, false]
          , [false, false, true, false] ] ∧
        (∀ item ∈ list.items, item.IsProper true) ∧
        (Item.Kind.all.flatMap list.ofKind).Perm list.items ∧
        ∀ kind other, kind ≠ other →
          (list.ofKind kind).Disjoint (list.ofKind other) := by
  have hKinds :
      ((ofText (stringTable none) false "COUNT(*) n, A".toList).bind
          fun selected =>
            (ofText (stringTable (some selected)) true
                "n DESC, A, 1, IIF(A = 'x', 1, 2)".toList).map
              fun list =>
                list.items.map fun item =>
                  Item.Kind.all.map item.isOf) =
        .ok
          [ [true, false, false, false]
          , [false, false, false, true]
          , [false, true, false, false]
          , [false, false, true, false] ] := by
    decide +kernel
  rcases bind_eq_ok_iff.mp hKinds with ⟨selected, hSelect, hOrder⟩
  rcases map_eq_ok_iff.mp hOrder with ⟨list, hRead, hItems⟩
  refine ⟨selected, list, hSelect, hRead, hItems, ?_⟩
  refine proper_and_divided ?_ hRead
  rintro other ⟨⟩
  exact .read (stringTable none) _ selected nofun hSelect

end ItemList

end SqlSelect
