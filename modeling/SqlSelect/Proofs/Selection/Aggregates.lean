import SqlSelect.Proofs.Origin.Items
import SqlSelect.Proofs.Selection.Calls

/-
  Aggregates of the select list in other lists and in
  conditions. A call is looked up there by its text and then
  by what it computes, with the letter case of the field left
  out of account, and what is found is the same everywhere.
  Two things can keep it from being the first aggregate that
  computes the same of the same field: a call with blanks in
  front of its parentheses is no operand, and another field
  can have the name in other letters.

  Main statements:
    * `Item.MeansSame`
    * `Item.MeansSame.sameAggregate`
    * `Item.readAliased_aggregate`
    * `Environment.fieldName_aggregate`
    * `Environment.aggregate_found`
    * `Environment.not_forall_aggregate_compared`
-/

namespace SqlSelect

------------------------------------------------------------
-- Aggregates of One Field
------------------------------------------------------------

namespace Item

/-
  The items are both fields or compute the same, and they do
  so for the same field of the table.
-/
structure MeansSame
    (schema : Schema)
    (a b : Item) : Prop where
  plain : a.isPlain = b.isPlain
  function : a.function = b.function
  distinct : a.distinct = b.distinct
  countsRows : a.countsRows = b.countsRows
  field : schema.find? a.source = schema.find? b.source

variable {schema : Schema}
variable {scope : Scope}
variable {a b : Item}

theorem MeansSame.refl
    (schema : Schema)
    (a : Item) :
    a.MeansSame schema a :=
  ⟨rfl, rfl, rfl, rfl, rfl⟩

/- Aliases and directions do not matter for what is meant. -/
theorem MeansSame.of_content
    {a' b' : Item}
    (hMeans : a.MeansSame schema b)
    (hFirst : a'.content = a.content)
    (hSecond : b'.content = b.content) :
    a'.MeansSame schema b' := by
  have hSame
      {α : Type}
      (f : Item → α)
      (hFun : ∀ item : Item, f item.content = f item)
      (hEq : f a = f b) :
      f a' = f b' := by
    rw [← hFun a', ← hFun b', hFirst, hSecond, hFun, hFun, hEq]
  refine ⟨?_, ?_, ?_, ?_, ?_⟩
  · exact hSame Item.isPlain (fun _ => rfl) hMeans.plain
  · exact hSame Item.function (fun _ => rfl) hMeans.function
  · exact hSame Item.distinct (fun _ => rfl) hMeans.distinct
  · exact hSame Item.countsRows (fun _ => rfl) hMeans.countsRows
  · exact
      hSame (fun item => schema.find? item.source) (fun _ => rfl)
        hMeans.field

/- Names that refer to one field differ in letter case at most. -/
theorem sameWord_of_find?_eq
    {name name' : Text}
    {field : Field}
    (hFind : schema.find? name = some field)
    (hFind' : schema.find? name' = some field) :
    Text.SameWord name name' :=
  (Schema.mem_of_find? hFind).2.symm.trans (Schema.mem_of_find? hFind').2

/- The item is about a field of the table, or about its rows. -/
def HasSource
    (schema : Schema)
    (a : Item) : Prop :=
  (a.countsRows = false ∧
      ∃ field, schema.find? a.source = some field) ∨
    (a.countsRows = true ∧ a.source = ['*'])

/- An aggregate that comes from the table alone has a source. -/
theorem Origin.hasSource
    (hOrigin : a.Origin ⟨schema, scope, none⟩)
    (hAggregate : a.isAggregate = true) :
    a.HasSource schema := by
  have hNo
      {b : Item}
      (hNone : b.function = none)
      (hContent : a.content = b) :
      a.HasSource schema := by
    have hFunction : a.content.function = b.function :=
      congrArg function hContent
    rw [isAggregate, show a.function = b.function from hFunction,
      hNone] at hAggregate
    cases hAggregate
  cases hOrigin with
  | field reference hResolves hContent => exact hNo rfl hContent
  | aggregate reference function distinct hResolves hContent =>
      have hSource : a.source = reference.name :=
        congrArg source hContent
      rcases hResolves.found with ⟨field, hFind, -⟩
      refine Or.inl ⟨congrArg Item.countsRows hContent, field, ?_⟩
      rwa [hSource]
  | rowCount hContent =>
      exact
        Or.inr
          ⟨congrArg Item.countsRows hContent, congrArg source hContent⟩
  | constant expression value hContent => exact hNo rfl hContent
  | choice expression choice hRead hContent => exact hNo rfl hContent
  | selected other hSelects hContent =>
      rcases hSelects with ⟨list, hList, -⟩
      cases hList

/- The aggregates of a select list have a source. -/
theorem hasSource_of_mem
    {list : ItemList}
    {t : Text}
    (hSelect : ItemList.ofText ⟨schema, scope, none⟩ false t = .ok list)
    (hMem : a ∈ list.items)
    (hAggregate : a.isAggregate = true) :
    a.HasSource schema := by
  rcases ItemList.exists_reads_of_mem hSelect hMem
    with ⟨piece, items, hReads, hIn⟩
  cases hReads with
  | star qualifier hStar hContents =>
      rcases isField_of_mem hContents hIn with ⟨field, -, hContent⟩
      have hFunction : a.function = none := congrArg function hContent
      rw [isAggregate, hFunction] at hAggregate
      cases hAggregate
  | single other hNoStar hOrigin hItems =>
      rw [hItems, List.mem_singleton] at hIn
      subst hIn
      exact hOrigin.hasSource hAggregate

/- Aggregates that mean the same are found as the same. -/
theorem MeansSame.sameAggregate
    (hMeans : a.MeansSame schema b)
    (hAggregate : b.isAggregate = true)
    (hSource : a.HasSource schema)
    (hSource' : b.HasSource schema) :
    a.SameAggregate b := by
  have hAggregate' : a.isAggregate = true := by
    rwa [isAggregate, hMeans.function]
  refine
    ⟨⟨hAggregate', hMeans.function⟩,
      ⟨hMeans.distinct, hMeans.countsRows⟩, ?_⟩
  have hRows := hMeans.countsRows
  rcases hSource with ⟨hNot, field, hFind⟩ | ⟨hCounts, hStar⟩
  · have hFind' := hFind
    rw [hMeans.field] at hFind'
    exact sameWord_of_find?_eq hFind hFind'
  · rcases hSource' with ⟨hNot', -⟩ | ⟨-, hStar'⟩
    · rw [hCounts, hNot'] at hRows
      cases hRows
    · rw [hStar, hStar']
      exact Text.sameWord_refl _

------------------------------------------------------------
-- Calls of Aggregates
------------------------------------------------------------

variable {x : Text}
variable {aggregate : Item}

/- A text that is read as an aggregate is a call of a function. -/
theorem exists_call_of_aggregateCall?
    (hRead : aggregateCall? schema scope x = .ok (some aggregate)) :
    ∃ name argument function,
      Text.call? x = .ok (some (name, argument)) ∧
        AggregateFunction.ofWord? name = some function ∧
        readAggregate schema scope x function argument =
          .ok aggregate := by
  rcases bind_eq_ok_iff.mp hRead with ⟨call?, hCall, hRest⟩
  split at hRest
  · cases hRest
  · rename_i name argument
    split at hRest
    · cases hRest
    · rename_i function hFunction
      rcases bind_eq_ok_iff.mp hRest with ⟨found, hFound, hEq⟩
      cases hEq
      exact ⟨name, argument, function, hCall, hFunction, hFound⟩

theorem isAggregate_of_readAggregate
    {expression argument : Text}
    {function : AggregateFunction}
    (hRead :
      readAggregate schema scope expression function argument =
        .ok aggregate) :
    aggregate.isAggregate = true := by
  rcases aggregates_of_readAggregate hRead with ⟨-, -, rfl⟩ | ⟨_, -, -, rfl⟩
  · rfl
  · rfl

/- An aggregate is none of the words with a meaning of their own. -/
theorem avoids_of_ofWord?
    {words : List Text}
    {name : Text}
    {function : AggregateFunction}
    (hFound : AggregateFunction.ofWord? name = some function)
    (hOther :
      ∀ function ∈ AggregateFunction.all,
        Name.Avoids words (AggregateFunction.spelling function)) :
    Name.Avoids words name := by
  have hMem := List.mem_of_find?_eq_some hFound
  have hSame : Text.SameWord name function.spelling := by
    simpa using List.find?_some hFound
  intro word hWord hSpelled
  exact hOther function hMem word hWord (hSame.symm.trans hSpelled)

/-
  A call of an aggregate is an item of the select list by its
  text or by what it computes, and else a new one.
-/
theorem readAliased_aggregate
    (list : ItemList)
    (hTrim : Text.trim x = x)
    (hRead : aggregateCall? schema scope x = .ok (some aggregate)) :
    readAliased ⟨schema, scope, some list⟩ x none =
      .ok
        [((list.find? x).or (list.findAggregate? aggregate)).getD
          aggregate] := by
  rcases exists_call_of_aggregateCall? hRead
    with ⟨name, argument, function, hCall, hFunction, hAggregate⟩
  rcases Text.exists_isCall hTrim hCall with ⟨gap, hShape⟩
  rw [readAliased, star?_call hShape]
  simp only [bind, Except.bind]
  cases hText : list.find? x with
  | some item => simp [Environment.selected?, hText, withAlias]
  | none =>
      simp only [Environment.selected?, Option.bind_some, hText]
      rw [readExpression, hCall]
      simp only [bind, Except.bind, readCall, hFunction,
        readSelectedAggregate, hAggregate]
      rfl

end Item

namespace Environment

variable {schema : Schema}
variable {scope : Scope}
variable {x : Text}
variable {aggregate : Item}

/-
  An operand that calls an aggregate is the column of an item
  of the select list, by its text or by what it computes.
-/
theorem fieldName_aggregate
    (list : ItemList)
    (hTrim : Text.trim x = x)
    (hRead : Item.aggregateCall? schema scope x = .ok (some aggregate)) :
    fieldName ⟨schema, scope, some list⟩ x =
      match (list.find? x).or (list.findAggregate? aggregate) with
      | some found => .ok found.columnName
      | none => .error (.unknownField x) := by
  simp only [fieldName, hTrim, selected?, Option.bind_some,
    selectedAggregate?, hRead]
  cases list.find? x with
  | some item => rfl
  | none =>
      simp only [bind, Except.bind, Option.none_or]
      cases list.findAggregate? aggregate with
      | some found => rfl
      | none => rfl

end Environment

------------------------------------------------------------
-- What Is Found
------------------------------------------------------------

/- No blank stands between the name and the group of a call. -/
def Text.IsCompact
    (x : Text) : Prop :=
  (x.dropWhile isNameChar).head? = some '('

instance
    (x : Text) :
    Decidable x.IsCompact := by
  unfold Text.IsCompact
  infer_instance

theorem Text.IsCall.isCompact_iff
    {x name gap argument : Text}
    (hCall : IsCall x name gap argument) :
    x.IsCompact ↔ gap = [] := by
  have hDrop :
      x.dropWhile isNameChar =
        (gap ++ '(' :: (argument ++ [')'])).dropWhile isNameChar := by
    rw [hCall.text, List.dropWhile_append_of_pos hCall.names]
  have hBlank := hCall.blank
  rw [IsCompact, hDrop]
  cases gap with
  | nil =>
      have hOpen : isNameChar '(' = false := by decide +kernel
      simp [hOpen]
  | cons c gap =>
      have hFirst := (isBlank_cons.mp hBlank).1
      have hParen : c ≠ '(' := by
        rintro rfl
        exact absurd hFirst (by decide)
      simp [isNameChar_eq_false_of_isBlank hFirst, hParen]

namespace Environment

variable {schema : Schema}
variable {scope : Scope}
variable {list : ItemList}
variable {before after : List Item}
variable {item aggregate found : Item}
variable {e selectText : Text}

/- The words in front of which no aggregate is taken apart. -/
theorem avoids_keywords
    {name : Text}
    {function : AggregateFunction}
    (hFound : AggregateFunction.ofWord? name = some function) :
    Name.Avoids Text.guardWords name ∧
      Name.Avoids ["AND".toList, "OR".toList] name :=
  ⟨Item.avoids_of_ofWord? hFound (by decide),
    Item.avoids_of_ofWord? hFound (by decide)⟩

/- In an order the call is read as what is found for it. -/
theorem ofText_aggregate
    (hRead :
      Item.aggregateCall? schema scope (Text.trim e) =
        .ok (some aggregate))
    (hFound :
      (list.find? (Text.trim e)).or (list.findAggregate? aggregate) =
        some found) :
    ItemList.ofText ⟨schema, scope, some list⟩ true e =
      .ok ⟨false, [{ found with direction := some .ascending }]⟩ := by
  rcases Item.exists_call_of_aggregateCall? hRead
    with ⟨name, argument, function, hCall, hFunction, -⟩
  rcases Text.exists_isCall (Text.trim_trim e) hCall with ⟨gap, hShape⟩
  have hItem :=
    Item.readAliased_aggregate list (Text.trim_trim e) hRead
  rw [hFound, Option.getD_some] at hItem
  have hSplit :
      Item.splitDistinct (Text.trim e) = (false, Text.trim e) := by
    have hNone :
        (Cursor.ofText (Text.trim e)).afterKeyword? "DISTINCT".toList =
          none := by
      apply Text.afterKeyword?_eq_none_of_leadingWord (by decide)
        (by decide) (Condition.trimStart_trim e)
      rw [hShape.leadingWord_eq]
      exact (avoids_keywords hFunction).1 _ (by decide)
    simp only [Item.splitDistinct, hNone]
  have hReadItem :
      Item.readItem ⟨schema, scope, some list⟩ true (Text.trim e) =
        .ok [{ found with direction := some .ascending }] := by
    rw [Item.readItem_call true hShape, hItem]
    rfl
  have hIsRead :=
    Item.isRead_of_readItem hShape.ne_nil (Text.trim_trim e) hSplit
      hShape.balanced_text hShape.noComma hReadItem
  exact (Item.IsRead.of_trim rfl hIsRead).2

/- The blanks around the call in front of the comparison. -/
theorem exists_blanks_comparison
    (e : Text)
    (hSome : Text.trim e ≠ []) :
    ∃ b b',
      Text.IsBlank b ∧ Text.IsBlank b' ∧
        e ++ " > 1".toList =
          b ++ (Text.trim e ++ (b' ++ " > 1".toList)) ∧
        Text.trim (e ++ " > 1".toList) =
          Text.trim e ++ (b' ++ " > 1".toList) := by
  rcases Text.exists_blanks_trim e with ⟨b, b', hFront, hBehind, hText⟩
  have hWhole :
      e ++ " > 1".toList =
        b ++ (Text.trim e ++ (b' ++ " > 1".toList)) := by
    conv_lhs => rw [hText]
    simp
  refine ⟨b, b', hFront, hBehind, hWhole, ?_⟩
  rw [hWhole, Text.trim_append_left _ hFront]
  apply Text.trim_eq_of_isTrimmed
  constructor
  · rw [List.head?_append_of_ne_nil _ hSome]
    exact (Text.isTrimmed_trim e).1
  · have hLast : " > 1".toList.getLast? = some '1' := rfl
    rw [← List.append_assoc, List.getLast?_append, hLast,
      Option.some_or]
    decide

/- The comparison with one, behind any blanks. -/
theorem readComparison_gt_one
    {env : Environment}
    {whole left b : Text}
    {p : Predicate}
    (hBlank : Text.IsBlank b) :
    Predicate.readComparison env whole left
        ⟨whole, Text.trimStart (b ++ " > 1".toList), 0⟩ = .ok p ↔
      p = ⟨left, .gt, some "1".toList, none, some (.integer 1)⟩ := by
  have hStart :
      Text.trimStart (b ++ " > 1".toList) =
        ">".toList ++ ' ' :: "1".toList := by
    rw [Text.trimStart_append _ hBlank]
    decide
  have hOne : Literal.ofText? "1".toList = some (.integer 1) := by
    decide +kernel
  rw [hStart,
    Predicate.readComparison_symbol
      (show Comparison.ofSymbol? ">".toList = some .gt from rfl)
      (by decide) (by decide) rfl,
    Predicate.readRight_of_some (by decide) (by decide) hOne]
  simp only [Except.ok.injEq]
  exact eq_comm

/- Behind a call there is a blank in front of the comparison. -/
theorem head?_gt_one
    {b : Text}
    (hBlank : Text.IsBlank b) :
    (b ++ " > 1".toList).head?.any isBlank = true := by
  cases b with
  | nil => decide
  | cons c b => simpa using (Text.isBlank_cons.mp hBlank).1

section

variable {name gap argument : Text}

/- The comparison is one part of a condition. -/
theorem isPart_gt_one
    (hShape : Text.IsCall (Text.trim e) name gap argument)
    (hJoints : Name.Avoids ["AND".toList, "OR".toList] name) :
    Condition.IsPart (e ++ " > 1".toList) := by
  rcases exists_blanks_comparison e hShape.ne_nil
    with ⟨b, b', hFront, hBehind, hText, -⟩
  rw [hText]
  apply Condition.isPart_blank_append hFront
  apply hShape.isPart_append hJoints (head?_gt_one hBehind)
  apply Condition.isPart_blank_append hBehind
  refine Condition.isPart_of_no_letter (by decide) fun c hMem => ?_
  have hNone : " > 1".toList.all (fun c => !c.isAlpha) = true := by
    decide
  simpa using List.all_eq_true.mp hNone c hMem

/- With blanks in front of the group it is not read. -/
theorem ofText_gap_gt_one_ne_ok
    {env : Environment}
    {c : Condition}
    (hShape : Text.IsCall (Text.trim e) name gap argument)
    (hGap : gap ≠ [])
    (hGuards : Name.Avoids Text.guardWords name)
    (hJoints : Name.Avoids ["AND".toList, "OR".toList] name) :
    Condition.ofText env (e ++ " > 1".toList) ≠ .ok c := by
  rcases exists_blanks_comparison e hShape.ne_nil
    with ⟨_, b, -, -, -, hTrim⟩
  have hNot : ¬ Text.IsBlank (e ++ " > 1".toList) := by
    rw [← Text.trim_eq_nil_iff, hTrim]
    exact List.append_ne_nil_of_left_ne_nil hShape.ne_nil _
  have hBare :
      Condition.bare (e ++ " > 1".toList) =
        (false, Text.trim (e ++ " > 1".toList)) := by
    apply Condition.bare_of_none
    apply Text.afterKeyword?_eq_none_of_leadingWord (by decide)
      (by decide) (Condition.trimStart_trim _)
    rw [hTrim, hShape.leadingWord_append]
    exact hGuards _ (by decide)
  have hOpen : (Text.trim (e ++ " > 1".toList)).head? ≠ some '(' := by
    rw [hTrim]
    exact hShape.head?_append_ne _
  intro hRead
  rw [Condition.ofText_comparison_iff (isPart_gt_one hShape hJoints) hNot
    hBare hOpen, hTrim] at hRead
  rcases hRead with ⟨p, hPredicate, -⟩
  exact Predicate.ofText_call_ne_ok hShape hGap hGuards hPredicate

end

/-
  In a comparison the call is the column of what is found for
  it, if there are no blanks in front of its group. With
  blanks there the comparison is not read.
-/
theorem ofText_aggregate_gt_one
    {c : Condition}
    (hRead :
      Item.aggregateCall? schema scope (Text.trim e) =
        .ok (some aggregate))
    (hFound :
      (list.find? (Text.trim e)).or (list.findAggregate? aggregate) =
        some found) :
    Condition.ofText ⟨schema, scope, some list⟩ (e ++ " > 1".toList) =
        .ok c ↔
      (Text.trim e).IsCompact ∧
        c =
          .atom false .first
            ⟨found.columnName, .gt, some "1".toList, none,
              some (.integer 1)⟩ := by
  rcases Item.exists_call_of_aggregateCall? hRead
    with ⟨name, argument, function, hCall, hFunction, -⟩
  rcases Text.exists_isCall (Text.trim_trim e) hCall with ⟨gap, hShape⟩
  rcases avoids_keywords hFunction with ⟨hGuards, hJoints⟩
  rw [hShape.isCompact_iff]
  by_cases hGap : gap = []
  · subst hGap
    have hItem :=
      Item.readAliased_aggregate list (Text.trim_trim e) hRead
    have hField :=
      fieldName_aggregate list (Text.trim_trim e) hRead
    rw [hFound] at hItem hField
    have hStands := (hShape.isWhole hGuards).standsFor hItem hField
    rcases exists_blanks_comparison e hShape.ne_nil
      with ⟨_, b, -, hBehind, -, hTrim⟩
    rw [hStands.compared _ _ c hTrim
      (Stop.halts_of_blank (head?_gt_one hBehind))
      (isPart_gt_one hShape hJoints)]
    simp only [readComparison_gt_one hBehind, true_and]
    constructor
    · rintro ⟨p, rfl, -, rfl⟩
      rfl
    · rintro rfl
      exact ⟨_, rfl, rfl, rfl⟩
  · simp only [hGap, false_and, iff_false]
    exact ofText_gap_gt_one_ne_ok hShape hGap hGuards hJoints

/- What is found at all, and when it is the item given. -/
theorem found_eq_iff
    (p : Item → Bool)
    (byText : Option Item)
    (hItems : list.items = before ++ item :: after)
    (hHolds : p item = true)
    (hNew : item ∉ before) :
    ∃ found,
      byText.or (list.items.find? p) = some found ∧
        (found = item ↔
          byText = some item ∨
            byText = none ∧ ∀ earlier ∈ before, p earlier = false) := by
  cases byText with
  | some other => exact ⟨other, rfl, by simp⟩
  | none =>
      rw [hItems, List.find?_append]
      cases hEarlier : before.find? p with
      | some earlier =>
          have hMem := List.mem_of_find?_eq_some hEarlier
          have hFound := List.find?_some hEarlier
          refine ⟨earlier, rfl, iff_of_false ?_ ?_⟩
          · rintro rfl
            exact hNew hMem
          · rintro (hText | ⟨-, hNone⟩)
            · cases hText
            · rw [hNone earlier hMem] at hFound
              cases hFound
      | none =>
          rw [List.find?_eq_none] at hEarlier
          refine ⟨item, ?_, iff_of_true rfl (Or.inr ⟨rfl, ?_⟩)⟩
          · rw [List.find?_cons_of_pos hHolds]
            rfl
          · exact fun earlier hMem => by simpa using hEarlier earlier hMem

/-
  What a call of an aggregate comes to where the select list
  has an aggregate that means the same. An order takes it as
  the item that is found for it. A comparison takes it as the
  column of this item, unless blanks stand in front of its
  group. And the item that is found is the first that means
  the same, unless the text of the call is a name for another
  or one in front has a field whose name differs in letter
  case.
-/
theorem aggregate_found
    (hSelect :
      ItemList.ofText ⟨schema, scope, none⟩ false selectText = .ok list)
    (hRead :
      Item.aggregateCall? schema scope (Text.trim e) =
        .ok (some aggregate))
    (hItems : list.items = before ++ item :: after)
    (hMeans : item.MeansSame schema aggregate)
    (hFirst :
      ∀ earlier ∈ before, ¬ earlier.MeansSame schema aggregate) :
    ∃ found,
      ItemList.ofText ⟨schema, scope, some list⟩ true e =
          .ok
            ⟨false, [{ found with direction := some .ascending }]⟩ ∧
        (∀ c,
          Condition.ofText ⟨schema, scope, some list⟩
                (e ++ " > 1".toList) = .ok c ↔
            (Text.trim e).IsCompact ∧
              c =
                .atom false .first
                  ⟨found.columnName, .gt, some "1".toList, none,
                    some (.integer 1)⟩) ∧
        (found = item ↔
          list.find? (Text.trim e) = some item ∨
            list.find? (Text.trim e) = none ∧
              ∀ earlier ∈ before,
                ¬ earlier.SameAggregate aggregate) := by
  rcases Item.exists_call_of_aggregateCall? hRead
    with ⟨name, argument, function, -, -, hAggregate⟩
  have hKind := Item.isAggregate_of_readAggregate hAggregate
  have hKind' : item.isAggregate = true := by
    rwa [Item.isAggregate, hMeans.function]
  have hMem : item ∈ list.items := by simp [hItems]
  have hSame : item.SameAggregate aggregate :=
    hMeans.sameAggregate hKind
      (Item.hasSource_of_mem hSelect hMem hKind')
      (Item.Origin.hasSource
        (Item.origin_of_readAggregate hAggregate) hKind)
  have hNew : item ∉ before := fun hIn => hFirst item hIn hMeans
  rcases found_eq_iff (fun other => decide (other.SameAggregate aggregate))
      (list.find? (Text.trim e)) hItems (by simpa using hSame) hNew
    with ⟨found, hFound, hIff⟩
  refine
    ⟨found, ofText_aggregate hRead hFound,
      fun c => ofText_aggregate_gt_one hRead hFound, ?_⟩
  simpa using hIff

/- A table of numbers, and two aggregates of it in other letters. -/
def numberSchema : Schema :=
  ⟨[⟨"A".toList, .ofCategory .integer⟩]⟩

/- The sum of the numbers, as it is selected. -/
def sumItem : Item :=
  { source := "A".toList
    aliasName := some "SUM(A)".toList
    function := some .sum
    type := some (.ofCategory .integer) }

/- A call in other letters, with quotes and blanks in its group. -/
theorem aggregate_found_spelled :
    ItemList.ofText
        ⟨numberSchema, ⟨none, none⟩, some ⟨false, [sumItem]⟩⟩ true
        "sum( \"a\" )".toList =
      .ok ⟨false, [{ sumItem with direction := some .ascending }]⟩ ∧
    Condition.ofText
        ⟨numberSchema, ⟨none, none⟩, some ⟨false, [sumItem]⟩⟩
        ("sum( \"a\" )".toList ++ " > 1".toList) =
      .ok
        (.atom false .first
          ⟨"SUM(A)".toList, .gt, some "1".toList, none,
            some (.integer 1)⟩) := by
  have hRead :
      Item.aggregateCall? numberSchema ⟨none, none⟩
          (Text.trim "sum( \"a\" )".toList) =
        .ok
          (some
            { source := "a".toList
              aliasName := some "sum( \"a\" )".toList
              function := some .sum
              type := some (.ofCategory .integer) }) := by
    decide +kernel
  have hSelect :
      ItemList.ofText ⟨numberSchema, ⟨none, none⟩, none⟩ false
          "SUM(A)".toList =
        .ok ⟨false, [sumItem]⟩ := by
    decide +kernel
  rcases aggregate_found hSelect hRead
      (show [sumItem] = [] ++ sumItem :: [] from rfl)
      ⟨rfl, rfl, rfl, rfl, by decide⟩ (by simp)
    with ⟨found, hOrder, hCondition, hIff⟩
  have hFound : found = sumItem :=
    hIff.mpr (Or.inr ⟨by decide +kernel, by simp⟩)
  subst hFound
  exact ⟨hOrder, (hCondition _).mpr ⟨by decide +kernel, rfl⟩⟩

/-
  A call that means the same as a selected aggregate does not
  have to be read in a comparison.
-/
theorem not_forall_aggregate_compared :
    ¬ ∀ schema scope selectText list before item after e aggregate,
      ItemList.ofText ⟨schema, scope, none⟩ false selectText = .ok list →
        Item.aggregateCall? schema scope (Text.trim e) =
          .ok (some aggregate) →
        list.items = before ++ item :: after →
        item.MeansSame schema aggregate →
        (∀ earlier ∈ before, ¬ earlier.MeansSame schema aggregate) →
        (∀ other ∈ list.items,
          other.aliasName ≠ some (Text.trim e) ∧
            other.source ≠ Text.trim e) →
        ∃ p,
          Condition.ofText ⟨schema, scope, some list⟩
              (e ++ " > 1".toList) = .ok (.atom false .first p) ∧
            p.left = item.columnName := by
  intro hAll
  have hRead :
      Item.aggregateCall? numberSchema ⟨none, none⟩
          (Text.trim "SUM (A)".toList) =
        .ok
          (some
            { sumItem with aliasName := some "SUM (A)".toList }) := by
    decide +kernel
  rcases hAll numberSchema ⟨none, none⟩ "SUM(A)".toList
      ⟨false, [sumItem]⟩ [] sumItem [] "SUM (A)".toList _
      (by decide +kernel) hRead rfl ⟨rfl, rfl, rfl, rfl, rfl⟩ (by simp)
      (by decide)
    with ⟨p, hCondition, -⟩
  have hError :
      Condition.ofText
          ⟨numberSchema, ⟨none, none⟩, some ⟨false, [sumItem]⟩⟩
          ("SUM (A)".toList ++ " > 1".toList) =
        .error (.unknownField "SUM".toList) := by
    decide +kernel
  rw [hError] at hCondition
  cases hCondition

end Environment

end SqlSelect
