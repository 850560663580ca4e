import SqlSelect.Proofs.Choice.Sections
import SqlSelect.Proofs.Query.Opacity
import SqlSelect.Proofs.Query.Tables

/-
  Tables in writing. Whatever a table is called, a query with
  it behind FROM is one on this table: no keyword is found in
  the names, which are in quotes or have the characters of a
  word and are none of the words of keywords, and they are the
  words and the parts that they were written as.

  Main statements:
    * `Clause.NoWordIn`
    * `Name.IsWriting`
    * `Table.IsWriting`
    * `Table.IsWriting.ofText_eq`
    * `Clause.text?_of_first`
    * `Query.ofText_selectAll`
-/

namespace SqlSelect

------------------------------------------------------------
-- Free of Words
------------------------------------------------------------

namespace Clause

variable {s t v w b word : Text}

/- No word of a keyword stands in the text. -/
structure NoWordIn
    (t : Text) : Prop where
  balanced : Text.Balanced t
  free : ∀ word ∈ keywordWords, Text.IsFree [word] t

theorem isLetters_of_mem_keywordWords
    (hMem : word ∈ keywordWords) :
    Text.IsLetters word := by
  rcases List.mem_flatMap.mp hMem with ⟨clause, -, hWord⟩
  exact isLetters_words clause word hWord

theorem NoWordIn.noneIn
    (hNone : NoWordIn t) :
    NoneIn t := by
  refine ⟨hNone.balanced, fun clause => ?_⟩
  have hLetters := isLetters_words clause
  rcases exists_words clause with ⟨first, words, hWords, -⟩
  have hMem : first ∈ keywordWords :=
    List.mem_flatMap.mpr
      ⟨clause, mem_inOrder clause, hWords ▸ List.mem_cons_self⟩
  rw [hWords] at hLetters ⊢
  exact
    Text.isFree_of_first_word hLetters hNone.balanced
      (hNone.free first hMem)

theorem noWordIn_of_hidden
    (hBalanced : Text.Balanced t)
    (hHidden : Nesting.Hidden (Text.marking t)) :
    NoWordIn t :=
  ⟨hBalanced, fun _ hMem =>
    Text.isFree_of_hidden
      (Text.isLetters_of_mem_singleton (isLetters_of_mem_keywordWords hMem))
      hBalanced hHidden⟩

/- A word that is no word of a keyword has none in it. -/
theorem noWordIn_of_forall
    (hNames : ∀ c ∈ t, isNameChar c = true)
    (hAvoids : Name.Avoids keywordWords t) :
    NoWordIn t := by
  refine ⟨Text.balanced_of_plain fun c hMem =>
    not_isDelimiter_of_isNameChar (hNames c hMem), fun word hMem => ?_⟩
  refine
    Text.isFree_of_word
      (Text.isLetters_of_mem_singleton (isLetters_of_mem_keywordWords hMem))
      hNames (Text.not_spells_of_word hNames ?_)
  simpa using hAvoids word hMem

theorem noWordIn_of_as
    (hSame : Text.SameWord t "AS".toList) :
    NoWordIn t := by
  have hLetters := Text.isLetters_of_sameWord hSame (by decide)
  have hOther : Name.Avoids keywordWords "AS".toList := by decide
  refine
    noWordIn_of_forall
      (Text.isNameChar_of_isLetters hLetters)
      fun word hMem hWord => hOther word hMem (hSame.symm.trans hWord)

theorem NoWordIn.append_point
    (hFirst : NoWordIn v)
    (hSecond : NoWordIn w) :
    NoWordIn (v ++ '.' :: w) := by
  refine ⟨?_, fun word hMem => ?_⟩
  · have hPoint : Text.Balanced ['.'] := by decide
    exact
      Text.balanced_append hFirst.balanced
        (Text.balanced_append hPoint hSecond.balanced)
  · exact
      Text.isFree_append_point (isLetters_of_mem_keywordWords hMem)
        hFirst.balanced hSecond.balanced (hFirst.free word hMem)
        (hSecond.free word hMem)

theorem NoWordIn.append_gap
    (hFirst : NoWordIn s)
    (hSecond : NoWordIn t)
    (hGap : Text.IsGap b) :
    NoWordIn (s ++ (b ++ t)) := by
  have hBehind : Text.Balanced (b ++ t) :=
    Text.balanced_append (Text.balanced_of_isBlank hGap.2)
      hSecond.balanced
  refine
    ⟨Text.balanced_append hFirst.balanced hBehind, fun word hMem => ?_⟩
  have hWords :=
    Text.isLetters_of_mem_singleton (isLetters_of_mem_keywordWords hMem)
  have hFree : Text.IsFree [word] (b ++ t) := by
    have hSurround :=
      Text.isFree_surround hWords hGap.2 Text.isBlank_nil
        hSecond.balanced (hSecond.free word hMem)
    rwa [List.append_nil] at hSurround
  refine
    Text.isFree_append hWords hFirst.balanced (hFirst.free word hMem)
      hBehind hFree (fun _ => .inr (.inl ?_)) (by simp)
  cases b with
  | nil => exact absurd rfl hGap.1
  | cons c b => exact (Text.isBlank_cons.mp hGap.2).1

end Clause

------------------------------------------------------------
-- Names in Writing
------------------------------------------------------------

namespace Name

variable {name t : Text}

/-
  The text is the name in double quotes, or the name as it is
  if it has nothing but characters of a word and is no word of
  a keyword. An empty name has to be in quotes. AS may be left
  without them: it is told by its place between two words.
-/
inductive IsWriting
    (name : Text) : Text → Prop where
  | quoted : IsWriting name (quoted name)
  | bare
      (hSome : name ≠ [])
      (hNames : ∀ c ∈ name, isNameChar c = true)
      (hAvoids : Avoids Clause.keywordWords name) :
      IsWriting name name

namespace IsWriting

variable (hWriting : IsWriting name t)

include hWriting

theorem isWord :
    Text.IsWord t := by
  cases hWriting with
  | quoted => exact Text.isWord_quoted name
  | bare hSome hNames _ => exact Text.isWord_of_forall hSome hNames

theorem unquote_eq :
    unquote t = name := by
  cases hWriting with
  | quoted => exact unquote_quoted name
  | bare _ hNames _ => exact unquote_of_isBare (isBare_of_forall hNames)

/- No point is at the top level, so there is no qualifier. -/
theorem passes_point :
    Nesting.outside.Passes (fun c => c == '.') t := by
  cases hWriting with
  | quoted =>
      exact
        Nesting.passes_of_hidden (Text.hidden_quoted (by decide) name)
  | bare hSome hNames _ =>
      exact
        Nesting.passes_of_forall
          (Text.isWord_of_forall hSome hNames).balanced
          fun c hMem => ne_point_of_isNameChar c (hNames c hMem)

theorem noWordIn :
    Clause.NoWordIn t := by
  cases hWriting with
  | quoted =>
      exact
        Clause.noWordIn_of_hidden
          (Text.balanced_quoted (by decide) name)
          (Text.hidden_quoted (by decide) name)
  | bare _ hNames hAvoids =>
      exact Clause.noWordIn_of_forall hNames hAvoids

end IsWriting

end Name

------------------------------------------------------------
-- Tables in Writing
------------------------------------------------------------

namespace Table

variable {table : Table}
variable {service t source : Text}
variable {qualifier : Option Text}

/- The text is the name behind its qualifier, or the name alone. -/
inductive IsNamedBy
    (service : Text) : Option Text → Text → Prop where
  | alone
      {w : Text}
      (hService : Name.IsWriting service w) :
      IsNamedBy service none w
  | behind
      {qualifier v w : Text}
      (hQualifier : Name.IsWriting qualifier v)
      (hService : Name.IsWriting service w) :
      IsNamedBy service (some qualifier) (v ++ '.' :: w)

/- The text is the name of the table and its alias behind it. -/
inductive IsWriting : Table → Text → Prop where
  | alone
      {service t : Text}
      {qualifier : Option Text}
      (hName : IsNamedBy service qualifier t) :
      IsWriting ⟨qualifier, service, none⟩ t
  | named
      {service t gap aliasName a : Text}
      {qualifier : Option Text}
      (hName : IsNamedBy service qualifier t)
      (hGap : Text.IsGap gap)
      (hAlias : Name.IsWriting aliasName a) :
      IsWriting ⟨qualifier, service, some aliasName⟩ (t ++ (gap ++ a))
  | namedAs
      {service t gap keyword gap' aliasName a : Text}
      {qualifier : Option Text}
      (hName : IsNamedBy service qualifier t)
      (hGap : Text.IsGap gap)
      (hKeyword : Text.SameWord keyword "AS".toList)
      (hGap' : Text.IsGap gap')
      (hAlias : Name.IsWriting aliasName a) :
      IsWriting ⟨qualifier, service, some aliasName⟩
        (t ++ (gap ++ (keyword ++ (gap' ++ a))))

theorem IsNamedBy.isWord
    (hNamed : IsNamedBy service qualifier t) :
    Text.IsWord t := by
  cases hNamed with
  | alone hService => exact hService.isWord
  | behind hQualifier hService =>
      have hPoint : Text.IsWord ['.'] :=
        Text.isWord_singleton (by decide) (by decide)
      exact hQualifier.isWord.append (hPoint.append hService.isWord)

/- The name has the parts that it was written with. -/
theorem IsNamedBy.qualified_eq
    (hNamed : IsNamedBy service qualifier t) :
    Name.qualified t = .ok (qualifier, service) := by
  have hTrim := hNamed.isWord.trim_eq
  cases hNamed with
  | alone hService =>
      rw [Name.qualified_of_passes hTrim hService.isWord.balanced
        hService.passes_point, hService.unquote_eq]
  | behind hQualifier hService =>
      rw [Name.qualified_point hQualifier.isWord.balanced
        hQualifier.passes_point hTrim, hQualifier.unquote_eq,
        hService.unquote_eq]

theorem IsNamedBy.noWordIn
    (hNamed : IsNamedBy service qualifier t) :
    Clause.NoWordIn t := by
  cases hNamed with
  | alone hService => exact hService.noWordIn
  | behind hQualifier hService =>
      exact hQualifier.noWordIn.append_point hService.noWordIn

/- The text is cut into the name and the alias. -/
theorem IsWriting.exists_isCutInto
    (hWriting : IsWriting table source) :
    ∃ name aliasName,
      IsCutInto source name aliasName ∧
        IsNamedBy table.service table.qualifier name ∧
        aliasName.map Name.unquote = table.aliasName := by
  cases hWriting with
  | alone hName => exact ⟨_, _, .alone hName.isWord, hName, rfl⟩
  | named hName hGap hAlias =>
      exact
        ⟨_, _, .named hName.isWord hGap hAlias.isWord, hName,
          congrArg some hAlias.unquote_eq⟩
  | namedAs hName hGap hKeyword hGap' hAlias =>
      exact
        ⟨_, _, .namedAs hName.isWord hGap hKeyword hGap' hAlias.isWord,
          hName, congrArg some hAlias.unquote_eq⟩

theorem IsWriting.noWordIn
    (hWriting : IsWriting table source) :
    Clause.NoWordIn source := by
  cases hWriting with
  | alone hName => exact hName.noWordIn
  | named hName hGap hAlias =>
      exact hName.noWordIn.append_gap hAlias.noWordIn hGap
  | namedAs hName hGap hKeyword hGap' hAlias =>
      exact
        hName.noWordIn.append_gap
          ((Clause.noWordIn_of_as hKeyword).append_gap hAlias.noWordIn
            hGap')
          hGap

/- A table is read back from its text. -/
theorem IsWriting.ofText_eq
    (hWriting : IsWriting table source)
    (hService : table.service ≠ [])
    (hQualifier : table.qualifier ≠ some []) :
    ofText source = .ok table := by
  rcases hWriting.exists_isCutInto
    with ⟨name, aliasName, hCut, hNamed, hAlias⟩
  refine
    (ofText_eq_ok_iff hWriting.noWordIn.balanced
      (Text.trim_eq_of_isTrimmed hCut.isTrimmed)).mpr
      ⟨name, aliasName, hCut, hNamed.qualified_eq, ?_, hAlias.symm⟩
  exact not_or.mpr ⟨hService, hQualifier⟩

end Table

------------------------------------------------------------
-- Clauses behind the Table
------------------------------------------------------------

namespace Clause

variable {clause next : Clause}
variable {clauses : List Clause}
variable {s t source rest gap front keyword after : Text}

/-
  Behind blanks the text begins with the keyword of a clause
  that can stand behind this one.
-/
def IsContinuedBy
    (clause : Clause)
    (t : Text) : Prop :=
  ∃ gap keyword after,
    t = gap ++ (keyword ++ after) ∧
      Text.IsGap gap ∧ EndsAfter after ∧
      ∃ next ∈ clause.later, Text.Spells next.keyword.words keyword

theorem NoneIn.surround
    {b b' : Text}
    (hNone : NoneIn t)
    (hBlank : Text.IsBlank b)
    (hBlank' : Text.IsBlank b') :
    NoneIn (b ++ (t ++ b')) where
  balanced :=
    Text.balanced_append (Text.balanced_of_isBlank hBlank)
      (Text.balanced_append hNone.balanced
        (Text.balanced_of_isBlank hBlank'))
  free := fun clause =>
    Text.isFree_surround (isLetters_words clause) hBlank hBlank'
      hNone.balanced (hNone.free clause)

/- All of a text without keywords is read, if nothing is behind it. -/
theorem until_of_noneIn
    (clauses : List Clause)
    (hNone : NoneIn s) :
    Text.Until (clauses.map Clause.keyword) s s where
  isPrefix := List.prefix_refl s
  least k hMem front keyword after hOccurs := by
    rcases List.mem_map.mp hMem with ⟨clause, -, rfl⟩
    exact
      absurd hOccurs
        ((Text.isFree_iff (isLetters_words clause) hNone.balanced).mp
          (hNone.free clause) _ _ _)
  reached := .inl rfl

/- It is read up to a keyword that is behind it. -/
theorem until_of_spells
    (hNone : NoneIn s)
    (hBefore : EndsBefore s.getLast?)
    (hMem : next ∈ clauses)
    (hSpells : Text.Spells next.keyword.words keyword)
    (hEnds : EndsAfter after) :
    Text.Until (clauses.map Clause.keyword) (s ++ (keyword ++ after)) s := by
  have hNext :
      Text.Occurs next.keyword.words (s ++ (keyword ++ after)) s keyword
        after :=
    ⟨rfl, hNone.balanced, hBefore, hSpells, hEnds⟩
  refine
    ⟨List.prefix_append s _, ?_,
      .inr ⟨next.keyword, List.mem_map_of_mem hMem, _, _, hNext⟩⟩
  intro k hKeyword front' keyword' after' hOccurs
  rcases List.mem_map.mp hKeyword with ⟨other, -, rfl⟩
  by_contra hLt
  rw [Nat.not_le] at hLt
  -- What begins in the text ends in it, and there is nothing in it.
  have hLe :=
    hOccurs.length_le_of_lt (isLetters_words other)
      (isLetters_words next) hNext
      (by
        rw [initial_of_spells after hSpells]
        exact initial_ne_of_mem_tail other next)
      hLt
  rcases hOccurs.exists_restrict hLe with ⟨behind, hIn⟩
  exact
    (Text.isFree_iff (isLetters_words other) hNone.balanced).mp
      (hNone.free other) _ _ _ hIn

/-
  The text behind the first keyword of a clause is its text,
  if nothing is behind it but a clause that can be there.
-/
theorem text?_of_first
    (hText : IsText source)
    (hGap : Text.IsGap gap)
    (hRest : rest = [] ∨ clause.IsContinuedBy rest)
    (hBalanced : Text.Balanced t)
    (hFirst :
      Text.First clause.keyword.words t front keyword
        (gap ++ (source ++ rest))) :
    clause.text? t = .ok (some source) := by
  have hPart {b : Text} (hBlank : Text.IsBlank b) :
      Text.nonblank? (gap ++ (source ++ b)) = some source := by
    have hTrim : Text.trim (gap ++ (source ++ b)) = source := by
      rw [Text.trim_append_left _ hGap.2, Text.trim_append_right _ hBlank,
        Text.trim_eq_of_isTrimmed hText.trimmed]
    rw [Text.nonblank?, if_neg, hTrim]
    rw [← Text.trim_eq_nil_iff, hTrim]
    exact hText.some
  rcases exists_until_of_first hBalanced hFirst with ⟨u, hUntil, hRead⟩
  rw [hRead]
  rcases hRest with rfl
    | ⟨gap', next, after, rfl, hGap', hEnds, clause', hLater, hSpells⟩
  · have hAll :=
      until_of_noneIn clause.later
        (hText.toNoneIn.surround hGap.2 Text.isBlank_nil)
    rw [hUntil.unique hAll, hPart Text.isBlank_nil]
  · have hNone := hText.toNoneIn.surround hGap.2 hGap'.2
    have hBefore : EndsBefore (gap ++ (source ++ gap')).getLast? := by
      rw [← List.append_assoc,
        List.getLast?_append_of_ne_nil _ hGap'.1]
      exact Text.endsBefore_of_isBlank hGap'.2
    have hUpTo := until_of_spells hNone hBefore hLater hSpells hEnds
    simp only [List.append_assoc] at hUpTo
    rw [hUntil.unique hUpTo, hPart hGap'.2]

end Clause

namespace Query

variable {table : Table}
variable {source rest : Text}

/- What a query on everything in a table begins with. -/
def selectAll : Text :=
  "SELECT * FROM ".toList

/- FROM is found in front of the table, and no earlier. -/
theorem first_selectAll
    (t : Text) :
    Text.First Clause.table.keyword.words (selectAll ++ t)
      "SELECT * ".toList "FROM".toList ([' '] ++ t) := by
  have hWords : Clause.table.keyword.words = ["FROM".toList] := by decide
  have hSplit :
      selectAll = "SELECT * ".toList ++ ("FROM".toList ++ [' ']) := by
    decide
  have hBlank : (isBlank ' ' || ' ' == '(') = true := by decide
  rw [hWords, Text.first_iff (by decide)]
  refine ⟨⟨?_, by decide, by decide, ?_, hBlank⟩, by decide +kernel⟩
  · rw [hSplit, List.append_assoc, List.append_assoc]
  · exact Text.spells_singleton (Text.sameWord_refl _)

/-
  A query with a table behind FROM, in whatever way its names
  are written, is read as one on this table. Behind the table
  is nothing, or a clause that can stand there.
-/
theorem ofText_selectAll
    (hService : table.service ≠ [])
    (hQualifier : table.qualifier ≠ some [])
    (hWriting : table.IsWriting source)
    (hRest : rest = [] ∨ Clause.table.IsContinuedBy rest)
    (hBalanced : Text.Balanced rest) :
    ofText ("SELECT * FROM ".toList ++ (source ++ rest)) =
      .ok
        ⟨"SELECT * FROM ".toList ++ (source ++ rest), source, table,
          none⟩ := by
  have hNone := hWriting.noWordIn.noneIn
  rcases hWriting.exists_isCutInto with ⟨name, aliasName, hCut, -, -⟩
  have hText : Clause.IsText source :=
    ⟨hNone, hCut.ne_nil, hCut.isTrimmed⟩
  have hWhole : Text.Balanced (selectAll ++ (source ++ rest)) :=
    Text.balanced_append (by decide)
      (Text.balanced_append hNone.balanced hBalanced)
  have hFound :
      Clause.table.text? (selectAll ++ (source ++ rest)) =
        .ok (some source) :=
    Clause.text?_of_first hText ⟨by decide, by decide⟩ hRest hWhole
      (first_selectAll (source ++ rest))
  have hClause :
      Clause.table.text (selectAll ++ (source ++ rest)) = .ok source := by
    rw [Clause.text, hFound]
    rfl
  change ofText (selectAll ++ (source ++ rest)) = _
  rw [ofText_eq_of_clause hClause,
    hWriting.ofText_eq hService hQualifier]
  rfl

/- Points, quotes and keywords are in the names. -/
theorem ofText_selectAll_quoted :
    Table.IsWriting
        ⟨some "k.ns".toList, "a FROM \"b".toList, some "s".toList⟩
        "\"k.ns\".\"a FROM \"\"b\" as s".toList ∧
      Clause.table.IsContinuedBy " where x".toList ∧
      ofText
          "SELECT * FROM \"k.ns\".\"a FROM \"\"b\" as s where x".toList =
        .ok
          ⟨"SELECT * FROM \"k.ns\".\"a FROM \"\"b\" as s where x".toList,
            "\"k.ns\".\"a FROM \"\"b\" as s".toList,
            ⟨some "k.ns".toList, "a FROM \"b".toList,
              some "s".toList⟩,
            none⟩ := by
  have hGap : Text.IsGap [' '] := by decide
  have hLetters : Text.IsLetters "s".toList := by decide
  have hAlias : Name.IsWriting "s".toList "s".toList :=
    .bare hLetters.1 (Text.isNameChar_of_isLetters hLetters)
      (by decide)
  have hWriting :
      Table.IsWriting
        ⟨some "k.ns".toList, "a FROM \"b".toList, some "s".toList⟩
        "\"k.ns\".\"a FROM \"\"b\" as s".toList :=
    .namedAs (.behind .quoted .quoted) hGap
      (by decide : Text.SameWord "as".toList _) hGap hAlias
  have hContinued : Clause.table.IsContinuedBy " where x".toList :=
    ⟨[' '], "where".toList, " x".toList, by decide, hGap, by decide,
      .filter, by decide, Text.spells_singleton (by decide)⟩
  exact
    ⟨hWriting, hContinued,
      ofText_selectAll (by decide) (by decide) hWriting
        (.inr hContinued) (by decide)⟩

end Query

end SqlSelect
