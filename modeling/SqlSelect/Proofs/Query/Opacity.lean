import SqlSelect.Proofs.Condition.Rows
import SqlSelect.Proofs.Query.Recovery
import SqlSelect.Proofs.Recall.Fields

/-
  String literals are opaque. Whatever a literal holds, quotes
  or keywords or parentheses, it is read as the one value that
  was quoted, and everything around it is read as before.

  Main statements:
    * `Condition.ofText_guardText`
    * `Clause.noneIn_guardText`
    * `Query.text?_filteredText`
    * `Query.resolve_guardedText`
-/

namespace SqlSelect

------------------------------------------------------------
-- A Value and a Condition
------------------------------------------------------------

/- The comparison of a field to a string. -/
def Predicate.pinned
    (name value : Text) : Predicate :=
  ⟨name, .eq, some value, none, some (.string value)⟩

theorem Predicate.compares_pinned
    (name value : Text) :
    Compares name (pinned name value) :=
  .value .eq (.string value) rfl trivial

namespace Condition

variable {env : Environment}
variable {name value t : Text}
variable {c : Condition}

/- A field is compared to a string, and a condition holds. -/
def guardText
    (name value t : Text) : Text :=
  name ++ " = ".toList ++ Quoted.quote value ++ " AND (".toList ++ t
    ++ ")".toList

/- What such a text stands for. -/
def guard
    (name value : Text)
    (c : Condition) : Condition :=
  .group false .first
    [.atom false .first (.pinned name value), .group false .and [c]]

/- The text is that of the comparison, and a group. -/
theorem guardText_eq
    (hPlain : Text.IsPlainName name) :
    guardText name value t =
      (atom false .first (.pinned name value)).written ++
        (joint .and ++ ('(' :: (t ++ [')']))) := by
  have hName : Name.written name = name := if_pos hPlain
  have hOther : (Predicate.pinned name value).comparison ≠ .parameter :=
    (Predicate.compares_pinned name value).comparison_ne
  have hWritten :
      (Predicate.pinned name value).written =
        name ++ " = ".toList ++ Quoted.quote value := by
    rw [Predicate.written_eq hOther, Predicate.ending_binary rfl]
    change Name.written name ++ ([' ', '=', ' '] ++ Quoted.quote value) = _
    rw [hName, ← List.append_assoc]
    rfl
  rw [written_atom, hWritten, guardText]
  simp [withNot, joint]

/-
  The comparison and the group are two parts. The group may
  be opened as long as its tree does not nest too deep.
-/
theorem ofText_guardText
    (hPlain : Text.IsPlainName name)
    (hRecalls : env.Recalls name)
    (hAvoids :
      Name.Avoids ["NOT".toList, "AND".toList, "OR".toList] name)
    (hText : ¬ Text.IsBlank t)
    (hRead : ofText env t = .ok c)
    (hNesting : c.nesting < depthLimit) :
    ofText env (guardText name value t) = .ok (guard name value c) := by
  have hCompares := Predicate.compares_pinned name value
  have hRecalled : (Predicate.pinned name value).Recalled env :=
    (Predicate.recalled_of_compares hCompares).mpr
      ⟨⟨hRecalls, hAvoids⟩, trivial⟩
  rcases
      readPart_atom (within env depthLimit) false (.compares hCompares)
        hRecalled
    with ⟨hPart, hAtom⟩
  have hFirst := readsRows_of_isPart hPart hAtom
  -- The group takes one of the parentheses that may be open.
  have hGroup := readsRows_inParentheses false hText hRead hNesting
  rw [negatedIf_false] at hGroup
  rw [guardText_eq hPlain]
  exact (hFirst.and hGroup).ofText_eq

end Condition

------------------------------------------------------------
-- Free of Keywords
------------------------------------------------------------

namespace Clause

variable {clause : Clause}
variable {name value s t word : Text}

/- Only the keywords of two words have a word behind the first. -/
theorem eq_by_of_mem_tail
    (hMem : word ∈ clause.keyword.words.tail) :
    word = "BY".toList := by
  have hAll :
      ∀ w ∈ clause.keyword.words.tail, w = "BY".toList := by
    cases clause <;> decide
  exact hAll word hMem

/-
  No keyword stands in two texts with a blank between them, if
  none stands in either and the second does not begin like BY.
-/
theorem NoneIn.append
    (hFirst : NoneIn s)
    (hSecond : NoneIn t)
    (hSeam : Text.Seam s t)
    (hInitial : Text.initial (Text.trimStart t) ≠ some 'b') :
    NoneIn (s ++ t) := by
  refine ⟨Text.balanced_append hFirst.balanced hSecond.balanced, ?_⟩
  intro clause
  refine
    Text.isFree_append (isLetters_words clause) hFirst.balanced
      (hFirst.free clause) hSecond.balanced (hSecond.free clause)
      (fun _ => hSeam) ?_
  intro word hMem
  rw [eq_by_of_mem_tail hMem]
  exact
    Text.startsWord_eq_false_of_initial (by decide)
      (fun hSame => hInitial (hSame ▸ by decide))

theorem noneIn_of_hidden
    (hBalanced : Text.Balanced t)
    (hHidden : Nesting.Hidden (Text.marking t)) :
    NoneIn t :=
  ⟨hBalanced, fun clause =>
    Text.isFree_of_hidden (isLetters_words clause) hBalanced hHidden⟩

/- The words of the keywords. -/
def keywordWords : List Text :=
  inOrder.flatMap fun clause => clause.keyword.words

theorem noneIn_of_isPlainName
    (hPlain : Text.IsPlainName name)
    (hAvoids : Name.Avoids keywordWords name) :
    NoneIn name := by
  have hNames (c : Char) (hMem : c ∈ name) :=
    Name.isNameChar_of_mem hPlain hMem
  refine ⟨?_, fun clause => ?_⟩
  · exact
      Text.balanced_of_plain fun c hMem =>
        not_isDelimiter_of_isNameChar (hNames c hMem)
  · refine
      Text.isFree_of_word (isLetters_words clause) hNames
        (Text.not_spells_of_word hNames fun word hMem => ?_)
    exact
      hAvoids word
        (List.mem_flatMap.mpr ⟨clause, mem_inOrder clause, hMem⟩)

/-
  A name, a literal and a group have no keyword of a clause at
  their top level, whatever stands in the quotes and in the
  parentheses.
-/
theorem noneIn_guardText
    (hPlain : Text.IsPlainName name)
    (hAvoids : Name.Avoids keywordWords name)
    (hBalanced : Text.Balanced t) :
    NoneIn (Condition.guardText name value t) := by
  have hGroup : NoneIn ('(' :: (t ++ [')'])) :=
    noneIn_of_hidden (Text.balanced_group hBalanced)
      (Text.hidden_group hBalanced)
  have hQuote : NoneIn (Quoted.quote value) :=
    noneIn_of_hidden (Text.balanced_quoted (by decide) value)
      (Text.hidden_quoted (by decide) value)
  have hAnd : NoneIn " AND ".toList :=
    ⟨by decide, fun clause => by cases clause <;> decide +kernel⟩
  have hSign : NoneIn " = ".toList :=
    ⟨by decide, fun clause => by cases clause <;> decide +kernel⟩
  have hText :
      Condition.guardText name value t =
        name ++ (" = ".toList ++ (Quoted.quote value ++
          (" AND ".toList ++ ('(' :: (t ++ [')']))))) := by
    simp [Condition.guardText]
  rw [hText]
  refine
    (noneIn_of_isPlainName hPlain hAvoids).append
      (hSign.append (hQuote.append (hAnd.append hGroup ?_ ?_) ?_ ?_)
        ?_ ?_)
      ?_ ?_
  -- What is behind each seam begins with one of ( a ' and =.
  · exact .inr (.inr (by decide))
  · exact ne_of_eq_of_ne (rfl : _ = some '(') (by decide)
  · exact Text.seam_of_blank _ _ (by decide)
  · exact ne_of_eq_of_ne (rfl : _ = some 'a') (by decide)
  · exact .inr (.inr (by decide))
  · exact ne_of_eq_of_ne (rfl : _ = some '\'') (by decide)
  · exact Text.seam_of_blank _ _ (by decide)
  · exact ne_of_eq_of_ne (rfl : _ = some '=') (by decide)

theorem isText_of_isPlainName
    (hPlain : Text.IsPlainName name)
    (hAvoids : Name.Avoids keywordWords name) :
    IsText name := by
  have hSome := Name.written_ne_nil name
  rw [Name.written, if_pos hPlain] at hSome
  exact
    ⟨noneIn_of_isPlainName hPlain hAvoids, hSome,
      Name.isTrimmed_of_isPlainName hPlain⟩

theorem isText_guardText
    (hPlain : Text.IsPlainName name)
    (hAvoids : Name.Avoids keywordWords name)
    (hBalanced : Text.Balanced t) :
    IsText (Condition.guardText name value t) := by
  rcases
      Predicate.isTrimmed_written
        (.compares (Predicate.compares_pinned name value))
    with ⟨hTrimmed, -, hSome, -⟩
  have hGroup : Text.IsTrimmed ("AND".toList ++ ' ' :: '(' :: (t ++ [')'])) :=
    Text.isTrimmed_append_blank_cons (by decide) (by simp) (by decide)
      (Text.isTrimmed_surround t (by decide) (by decide))
  have hSplit :
      Condition.guardText name value t =
        (Predicate.pinned name value).written ++
          ' ' :: ("AND".toList ++ ' ' :: '(' :: (t ++ [')'])) := by
    rw [Condition.guardText_eq hPlain, Condition.written_atom]
    rfl
  refine ⟨noneIn_guardText hPlain hAvoids hBalanced, ?_, ?_⟩
  · rw [hSplit]
    exact List.append_ne_nil_of_left_ne_nil hSome _
  · rw [hSplit]
    exact
      Text.isTrimmed_append_blank_cons hSome (by simp) hTrimmed hGroup

------------------------------------------------------------
-- Clauses in Writing
------------------------------------------------------------

/- Every keyword is a spelling of itself. -/
theorem spells_keyword
    (clause : Clause) :
    Text.Spells clause.keyword.words clause.keyword := by
  have hBy : Text.SpellsAfter ["BY".toList] " BY".toList :=
    ⟨[' '], "BY".toList, [], rfl, by decide, by decide, rfl, rfl⟩
  cases clause
  case grouping => exact ⟨"GROUP".toList, " BY".toList, rfl, rfl, hBy⟩
  case order => exact ⟨"ORDER".toList, " BY".toList, rfl, rfl, hBy⟩
  all_goals exact Text.spells_singleton rfl

/- A clause with its keyword and a blank in front of its text. -/
theorem stands_spaced
    {trailing : Text}
    (clause : Clause)
    (text : Text)
    (hTrailing : Text.IsBlank trailing)
    (hEnd : t = [] ∨ trailing ≠ []) :
    ClauseText.Stands clause (some text)
      ⟨clause.keyword, [' '], text, trailing⟩ t := by
  have hGap : Text.IsBlank [' '] := by decide
  refine ⟨spells_keyword clause, hGap, rfl, hTrailing, rfl, ?_⟩
  refine hEnd.imp_right fun hSome => ?_
  rw [ClauseText.written, ClauseText.body, ← List.append_assoc,
    ← List.append_assoc, List.getLast?_append_of_ne_nil _ hSome]
  exact Text.endsBefore_of_isBlank hTrailing

end Clause

------------------------------------------------------------
-- A Query with a Filter
------------------------------------------------------------

namespace Query

variable {schema : Schema}
variable {table : Table}
variable {name source filter : Text}

/- A query on a field, with a filter, an order and a limit. -/
def filteredText
    (name source filter : Text) : Text :=
  "SELECT ".toList ++ name ++ " FROM ".toList ++ source
    ++ " WHERE ".toList ++ filter ++ " ORDER BY ".toList ++ name
    ++ " LIMIT 5".toList

/- The texts of the clauses of such a query. -/
def filteredClauses
    (name source filter : Text) : Clause → Option Text
  | .select => some name
  | .table => some source
  | .filter => some filter
  | .grouping => none
  | .groupFilter => none
  | .order => some name
  | .limit => some "5".toList

theorem filteredText_eq
    (name source filter : Text) :
    filteredText name source filter =
      ClauseText.written ⟨Clause.select.keyword, [' '], name, [' ']⟩ ++
      (ClauseText.written ⟨Clause.table.keyword, [' '], source, [' ']⟩ ++
      (ClauseText.written ⟨Clause.filter.keyword, [' '], filter, [' ']⟩ ++
      (ClauseText.written ⟨Clause.order.keyword, [' '], name, [' ']⟩ ++
      ClauseText.written
        ⟨Clause.limit.keyword, [' '], "5".toList, []⟩))) := by
  have hSelect : "SELECT ".toList = Clause.select.keyword ++ [' '] := rfl
  have hTable :
      " FROM ".toList = ' ' :: (Clause.table.keyword ++ [' ']) := rfl
  have hFilter :
      " WHERE ".toList = ' ' :: (Clause.filter.keyword ++ [' ']) := rfl
  have hOrder :
      " ORDER BY ".toList = ' ' :: (Clause.order.keyword ++ [' ']) := rfl
  have hLimit :
      " LIMIT 5".toList =
        ' ' :: (Clause.limit.keyword ++ ' ' :: "5".toList) := rfl
  unfold filteredText
  rw [hSelect, hTable, hFilter, hOrder, hLimit]
  generalize "5".toList = count
  simp [ClauseText.written, ClauseText.body]

theorem laidOut_filteredText
    (name source filter : Text) :
    Clause.LaidOut (filteredClauses name source filter)
      (fun clause => filteredClauses name source filter clause = none)
      Clause.inOrder (filteredText name source filter) := by
  have hBlank : Text.IsBlank [' '] := by decide
  rw [filteredText_eq]
  refine .present _ (Clause.stands_spaced .select _ hBlank ?_) ?_
  · exact .inr (by decide)
  refine .present _ (Clause.stands_spaced .table _ hBlank ?_) ?_
  · exact .inr (by decide)
  refine .present _ (Clause.stands_spaced .filter _ hBlank ?_) ?_
  · exact .inr (by decide)
  refine .absent rfl (.absent rfl ?_)
  refine .present _ (Clause.stands_spaced .order _ hBlank ?_) ?_
  · exact .inr (by decide)
  rw [← List.append_nil (ClauseText.written _)]
  refine .present _ (Clause.stands_spaced .limit _ Text.isBlank_nil ?_) .nil
  exact .inl rfl

/- Every clause of such a query is found as it was put in. -/
theorem text?_filteredText
    (hName : Clause.IsText name)
    (hSource : Clause.IsText source)
    (hFilter : Clause.IsText filter)
    (clause : Clause) :
    clause.text? (filteredText name source filter) =
      .ok (filteredClauses name source filter clause) := by
  have hFive : Clause.IsText "5".toList :=
    ⟨⟨by decide, fun clause => by cases clause <;> decide +kernel⟩,
      by decide, by decide⟩
  refine Clause.LaidOut.text?_eq ?_ (laidOut_filteredText ..) clause
  rintro clause text hText
  cases clause <;> cases hText
  case select => exact hName
  case table => exact hSource
  case filter => exact hFilter
  case order => exact hName
  case limit => exact hFive

theorem clauses_filteredText
    (hName : Clause.IsText name)
    (hSource : Clause.IsText source)
    (hFilter : Clause.IsText filter) :
    Clauses.ofText (filteredText name source filter) =
      .ok
        ⟨name, some filter, none, none, some name, some "5".toList⟩ := by
  have hText := text?_filteredText hName hSource hFilter
  rw [Clauses.ofText, Clause.text]
  simp only [hText, filteredClauses, bind, Except.bind]

/- The query is accepted with its table, and not yet resolved. -/
theorem ofText_filteredText
    (hName : Clause.IsText name)
    (hSource : Clause.IsText source)
    (hFilter : Clause.IsText filter)
    (hTable : Table.ofText source = .ok table) :
    ofText (filteredText name source filter) =
      .ok ⟨filteredText name source filter, source, table, none⟩ := by
  have hText := text?_filteredText hName hSource hFilter .table
  rw [ofText, Clause.text, hText]
  simp only [filteredClauses, bind, Except.bind, hTable]

------------------------------------------------------------
-- Literals in Queries
------------------------------------------------------------

variable {name t : Text}
variable {scope : Scope}
variable {field : Field}
variable {c : Condition}

/- The words that have a meaning of their own in a condition. -/
def reservedWords : List Text :=
  ["NOT".toList, "AND".toList, "OR".toList]
    ++ "PARAMETER".toList :: Clause.keywordWords

/-
  A query that selects a field, orders by it and compares it
  to a string in its filter, next to another condition.
-/
def guardedText
    (name source value t : Text) : Text :=
  filteredText name source (Condition.guardText name value t)

/- The query is accepted as one on the table, yet to resolve. -/
def guarded
    (table : Table)
    (name source value t : Text) : Query :=
  ⟨guardedText name source value t, source, table, none⟩

/- What the clauses of the query are resolved to. -/
def guardedResolution
    (select order : ItemList)
    (name value t : Text)
    (c : Condition) : Resolution where
  clauses :=
    { select := name
      filter := some (Condition.guardText name value t)
      grouping := none
      groupFilter := none
      order := some name
      limit := some "5".toList }
  select := select
  filter := some (Condition.guard name value c)
  grouping := none
  groupFilter := none
  order := some order
  limit := some ⟨5, 0⟩

/-
  A field that is found by its name is recalled where there is
  no select list to look in first.
-/
theorem recalls_of_find?
    (scope : Scope)
    (hField : schema.find? name = some field) :
    Environment.Recalls ⟨schema, scope, none⟩ name := by
  change (schema.find? name).isSome = true
  rw [hField]
  rfl

/-
  The lists of the query are those of the field, and the
  filter is what it is read as by itself.
-/
theorem exists_ofClauses_filtered
    (table : Table)
    (hPlain : Text.IsPlainName name)
    (hField : schema.find? name = some field)
    (hOther : ¬ Text.SameWord name "CASE".toList) :
    ∃ select order, ∀ filter c,
      Condition.ofText
          ⟨schema, ⟨table.aliasName, some table.service⟩, none⟩
          filter = .ok c →
        Resolution.ofClauses schema table
            ⟨name, some filter, none, none, some name,
              some "5".toList⟩ =
          .ok
            ⟨⟨name, some filter, none, none, some name,
                some "5".toList⟩,
              select, some c, none, none, some order, some ⟨5, 0⟩⟩ := by
  have hSelected :
      ∃ select,
        ItemList.ofText
            ⟨schema, ⟨table.aliasName, some table.service⟩, none⟩ false
            name = .ok select :=
    ItemList.exists_ofText_name false hPlain hField hOther
  rcases hSelected with ⟨select, hSelect⟩
  have hOrdered :
      ∃ order,
        ItemList.ofText
            ⟨schema, ⟨table.aliasName, some table.service⟩,
              some select⟩ true name = .ok order :=
    ItemList.exists_ofText_name true hPlain hField hOther
  rcases hOrdered with ⟨order, hOrder⟩
  have hLimit : Limit.ofText "5".toList = .ok ⟨5, 0⟩ := by
    decide +kernel
  refine ⟨select, order, fun filter c hFilter => ?_⟩
  rw [Resolution.ofClauses]
  simp only [bind, Except.bind, readOptional, Except.map, hSelect,
    hFilter, hOrder, hLimit]

/- A select list that is the name CASE is refused. -/
theorem ofClauses_case
    {clauses : Clauses}
    (table : Table)
    (hPlain : Text.IsPlainName clauses.select)
    (hSame : Text.SameWord clauses.select "CASE".toList) :
    Resolution.ofClauses schema table clauses =
      .error
        (.malformed (.missingKeyword "END".toList clauses.select)) := by
  have hSelect :
      ItemList.ofText
          ⟨schema, ⟨table.aliasName, some table.service⟩, none⟩ false
          clauses.select =
        .error
          (.malformed (.missingKeyword "END".toList clauses.select)) :=
    ItemList.ofText_case false hPlain hSame rfl
  rw [Resolution.ofClauses, hSelect]
  rfl

/-
  Whatever string is quoted, a condition that compares a field
  to it is read with that string as the value, next to the
  other condition in its parentheses. In a query, too, nothing
  but this value and the texts that it is part of depend on
  it. The name CASE is refused as a select list, whatever
  string is quoted.
-/
theorem resolve_guardedText
    (hPlain : Text.IsPlainName name)
    (hField : schema.find? name = some field)
    (hAvoids : Name.Avoids reservedWords name)
    (hText : ¬ Text.IsBlank t)
    (hRead : Condition.ofText ⟨schema, scope, none⟩ t = .ok c)
    (hNesting : c.nesting < Condition.depthLimit) :
    (∀ value,
      Condition.ofText ⟨schema, scope, none⟩
          (Condition.guardText name value t) =
        .ok (Condition.guard name value c)) ∧
    ∀ source table,
      Clause.IsText source → Table.ofText source = .ok table →
        scope = ⟨table.aliasName, some table.service⟩ →
          (∀ value,
            ofText (guardedText name source value t) =
              .ok (guarded table name source value t)) ∧
          (¬ Text.SameWord name "CASE".toList →
            ∃ select order, ∀ value,
              (guarded table name source value t).resolve schema =
                .ok
                  { guarded table name source value t with
                    resolution :=
                      some
                        (guardedResolution select order name value t
                          c) }) ∧
          (Text.SameWord name "CASE".toList →
            ∀ value,
              (guarded table name source value t).resolve schema =
                .error
                  (.malformed
                    (.missingKeyword "END".toList name))) := by
  rcases Name.avoids_append.mp hAvoids with ⟨hJoins, hOthers⟩
  have hWords : Name.Avoids Clause.keywordWords name :=
    fun word hMem => hOthers word (List.mem_cons_of_mem _ hMem)
  have hCondition (value : Text) :
      Condition.ofText ⟨schema, scope, none⟩
          (Condition.guardText name value t) =
        .ok (Condition.guard name value c) :=
    Condition.ofText_guardText hPlain (recalls_of_find? scope hField)
      hJoins hText hRead hNesting
  have hBalanced : Text.Balanced t := by
    rw [Condition.ofText, if_neg hText] at hRead
    exact Condition.balanced_of_readNested hRead
  have hName := Clause.isText_of_isPlainName hPlain hWords
  have hFilter (value : Text) :
      Clause.IsText (Condition.guardText name value t) :=
    Clause.isText_guardText hPlain hWords hBalanced
  refine ⟨hCondition, ?_⟩
  rintro source table hSource hTable rfl
  refine ⟨fun value => ?_, fun hOther => ?_, fun hSame value => ?_⟩
  · exact ofText_filteredText hName hSource (hFilter value) hTable
  · rcases exists_ofClauses_filtered table hPlain hField hOther
      with ⟨select, order, hClauses⟩
    refine ⟨select, order, fun value => ?_⟩
    rw [resolve, guarded, guardedText,
      clauses_filteredText hName hSource (hFilter value)]
    simp only [bind, Except.bind, hClauses _ _ (hCondition value)]
    rfl
  · have hClauses :
        Resolution.ofClauses schema table
            ⟨name, some (Condition.guardText name value t), none, none,
              some name, some "5".toList⟩ =
          .error (.malformed (.missingKeyword "END".toList name)) :=
      ofClauses_case table hPlain hSame
    rw [resolve, guarded, guardedText,
      clauses_filteredText hName hSource (hFilter value)]
    simp only [bind, Except.bind, hClauses]

/- The schema of a table with one field. -/
def oneColumn
    (name : Text) : Schema :=
  ⟨[⟨name, .ofCategory .string⟩]⟩

theorem isText_service :
    Clause.IsText "S".toList :=
  ⟨⟨by decide, fun clause => by cases clause <;> decide +kernel⟩,
    by decide, by decide⟩

/- The field is one of two strings, the second in parentheses. -/
def eitherString : Condition :=
  .group false .first
    [ .atom false .first (.pinned "A".toList "x".toList),
      .group false .or
        [.atom false .first (.pinned "A".toList "y".toList)] ]

/- A string that would end the query if it were not quoted. -/
theorem resolve_guardedText_ending :
    Condition.ofText
        ⟨oneColumn "A".toList, ⟨none, some "S".toList⟩, none⟩
        "A = 'x'') LIMIT 1' AND (A = 'x' OR (A = 'y'))".toList =
      .ok (Condition.guard "A".toList "x') LIMIT 1".toList eitherString) ∧
    ∃ select order,
      (guarded ⟨none, "S".toList, none⟩ "A".toList "S".toList
          "x') LIMIT 1".toList "A = 'x' OR (A = 'y')".toList).resolve
          (oneColumn "A".toList) =
        .ok
          { guarded ⟨none, "S".toList, none⟩ "A".toList "S".toList
              "x') LIMIT 1".toList "A = 'x' OR (A = 'y')".toList with
            resolution :=
              some
                (guardedResolution select order "A".toList
                  "x') LIMIT 1".toList "A = 'x' OR (A = 'y')".toList
                  eitherString) } := by
  have hRead :
      Condition.ofText
          ⟨oneColumn "A".toList, ⟨none, some "S".toList⟩, none⟩
          "A = 'x' OR (A = 'y')".toList = .ok eitherString := by
    decide +kernel
  have hPlain : Text.IsPlainName "A".toList := by decide +kernel
  rcases
      resolve_guardedText hPlain rfl (by decide +kernel)
        (by decide +kernel) hRead (by decide +kernel)
    with ⟨hCondition, hQuery⟩
  rcases
      (hQuery "S".toList ⟨none, "S".toList, none⟩ isText_service
        (by decide +kernel) rfl).2.1 (by decide)
    with ⟨select, order, hResolve⟩
  exact
    ⟨hCondition "x') LIMIT 1".toList, select, order,
      hResolve "x') LIMIT 1".toList⟩

/- The name CASE is that of a field, and no select list. -/
theorem not_forall_resolve_guardedText :
    ¬ ∀ schema scope name field t c source table,
      Text.IsPlainName name → Schema.find? schema name = some field →
        Name.Avoids reservedWords name → ¬ Text.IsBlank t →
        Condition.ofText ⟨schema, scope, none⟩ t = .ok c →
        c.nesting < Condition.depthLimit → Clause.NoneIn t →
        Clause.IsText source → Table.ofText source = .ok table →
        scope = ⟨table.aliasName, some table.service⟩ →
          ∃ select order, ∀ value,
            (guarded table name source value t).resolve schema =
              .ok
                { guarded table name source value t with
                  resolution :=
                    some
                      (guardedResolution select order name value t
                        c) } := by
  intro hAll
  have hFree : Clause.NoneIn "CASE = 'y'".toList :=
    ⟨by decide, fun clause => by cases clause <;> decide +kernel⟩
  have hRead :
      Condition.ofText
          ⟨oneColumn "CASE".toList, ⟨none, some "S".toList⟩, none⟩
          "CASE = 'y'".toList =
        .ok (.atom false .first (.pinned "CASE".toList "y".toList)) := by
    decide +kernel
  have hRefused :
      (guarded ⟨none, "S".toList, none⟩ "CASE".toList "S".toList
          "x".toList "CASE = 'y'".toList).resolve
          (oneColumn "CASE".toList) =
        .error
          (.malformed (.missingKeyword "END".toList "CASE".toList)) := by
    decide +kernel
  rcases
      hAll (oneColumn "CASE".toList) ⟨none, some "S".toList⟩ "CASE".toList
        _ "CASE = 'y'".toList _ "S".toList ⟨none, "S".toList, none⟩
        (by decide +kernel) rfl (by decide +kernel) (by decide +kernel)
        hRead (by decide +kernel) hFree isText_service (by decide +kernel)
        rfl
    with ⟨select, order, hResolve⟩
  rw [hResolve "x".toList] at hRefused
  exact absurd hRefused (by simp)

end Query

end SqlSelect
