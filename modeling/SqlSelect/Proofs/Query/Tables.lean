import SqlSelect.Proofs.Query.Layout
import SqlSelect.Proofs.Selection.Naming

/-
  The text behind FROM as a table. What is told apart are the
  words of the text: one is the name, of two the second is the
  alias, and of three AS is between them. Everything else is
  refused. A comma is a character of a word like any other, so
  a list of tables is refused for the number of its words only.

  Main statements:
    * `Words.Separates`
    * `Text.isWord_of_wordsOf`
    * `Name.qualified_cases`
    * `Table.IsCutInto`
    * `Table.cutAlias?_eq_some_iff`
    * `Table.ofText_eq_ok_iff`
    * `Table.ofText_eq_severalTables_iff`
    * `Query.ofText_of_comma`
-/

namespace SqlSelect

------------------------------------------------------------
-- Words by Themselves
------------------------------------------------------------

namespace Words

/-
  No word has a blank at the top level, and there is a gap in
  front of every word behind the first. The walk over the
  first word begins where the walk over the text does.
-/
def Separates
    (n : Nesting)
    (w : Words) : Prop :=
  match w.list with
  | [] => True
  | (_, word) :: rest =>
      word ≠ [] ∧ n.Passes isBlank word ∧
        ∀ part ∈ rest,
          part.1 ≠ [] ∧ part.2 ≠ [] ∧
            Nesting.outside.Passes isBlank part.2

theorem Separates.pushGap
    {n : Nesting}
    {w : Words}
    (c : Char)
    (hSeparates : Separates n w) :
    Separates n (pushGap c w) := by
  rcases w with ⟨_ | ⟨⟨gap, word⟩, rest⟩, trailing⟩
  · exact trivial
  · exact hSeparates

theorem Separates.pushWord
    {n next : Nesting}
    {c : Char}
    {w : Words}
    (hStep : n.step c = some next)
    (hPlain : n.IsTop c → isBlank c = false)
    (hDivides : Divides next w)
    (hSeparates : Separates next w) :
    Separates n (pushWord c w) := by
  have hSingle : n.Passes isBlank [c] :=
    (Nesting.passes_cons hStep).mpr
      ⟨hPlain, Nesting.passes_nil isBlank next⟩
  rcases w with ⟨_ | ⟨⟨_ | ⟨d, gap⟩, word⟩, rest⟩, trailing⟩
  · exact ⟨List.cons_ne_nil c [], hSingle, by simp⟩
  · rcases hSeparates with ⟨-, hPasses, hRest⟩
    exact
      ⟨List.cons_ne_nil c word,
        (Nesting.passes_cons hStep).mpr ⟨hPlain, hPasses⟩, hRest⟩
  · rcases hSeparates with ⟨hSome, hPasses, hRest⟩
    have hNext : next = Nesting.outside :=
      hDivides.2.2.1 (List.cons_ne_nil d gap)
    rw [hNext] at hPasses
    refine ⟨List.cons_ne_nil c [], hSingle, ?_⟩
    intro part hMem
    rcases List.mem_cons.mp hMem with rfl | hMem
    · exact ⟨List.cons_ne_nil d gap, hSome, hPasses⟩
    · exact hRest part hMem

/- The words of a text are words, by induction on the text. -/
theorem separates_ofMarks
    {n : Nesting}
    {t : Text}
    (hRun : n.run t = some Nesting.outside) :
    Separates n (ofMarks (n.marking t)) := by
  induction t generalizing n with
  | nil => exact trivial
  | cons c t ih =>
      rcases Nesting.exists_step_of_run hRun with ⟨next, hStep, hRest⟩
      rw [Nesting.marking_cons _ hStep, ofMarks]
      split
      · rename_i hGap
        rcases (of_decide_eq_true hGap.1 : n.IsTop c)
          with ⟨rfl, hPlain⟩
        rw [Nesting.step_of_plain rfl hPlain, Option.some.injEq] at hStep
        subst hStep
        exact (ih hRest).pushGap c
      · rename_i hNoGap
        refine
          (ih hRest).pushWord hStep (fun hTop => ?_)
            (divides_ofMarks hRest)
        rw [Mark.IsGap, not_and, Bool.not_eq_true] at hNoGap
        exact hNoGap (decide_eq_true hTop)

end Words

namespace Text

variable {s t u v w b : Text}

/- A blank is on the outside of a word. -/
theorem IsWord.eq_nil_of_isBlank
    (hWord : IsWord (u ++ (b ++ v)))
    (hBalanced : Balanced u)
    (hBlank : IsBlank b) :
    b = [] := by
  by_contra hSome
  have hBlanks := balanced_of_isBlank hBlank
  rcases List.exists_mem_of_ne_nil _ (marking_ne_nil hBlanks hSome)
    with ⟨m, hMem⟩
  have hNone := not_isGap_of_passes hWord.passes
  rw [marking_append _ hBalanced, marking_append _ hBlanks] at hNone
  exact
    hNone m (List.mem_append_right _ (List.mem_append_left _ hMem))
      (isGap_of_mem_marking hBlank m hMem)

theorem IsWord.trim_eq
    (hWord : IsWord w) :
    trim w = w := by
  rcases exists_blanks_trim w with ⟨b, b', hBlank, hBlank', hText⟩
  have hFront : b = [] := by
    rw [hText, List.append_assoc] at hWord
    exact hWord.eq_nil_of_isBlank (u := []) balanced_nil hBlank
  have hBehind : b' = [] := by
    have hWhole := hWord.balanced
    rw [hText, balanced_append_blank_iff hBlank'] at hWhole
    rw [hText, ← List.append_nil b'] at hWord
    exact hWord.eq_nil_of_isBlank hWhole hBlank'
  rw [hFront, hBehind, List.append_nil] at hText
  exact hText.symm

/- A character that is no delimiter and no blank is a word. -/
theorem isWord_singleton
    {c : Char}
    (hPlain : ¬ IsDelimiter c)
    (hBlank : SqlSelect.isBlank c = false) :
    IsWord [c] := by
  have hBalanced : Balanced [c] := balanced_of_plain (by simpa using hPlain)
  exact
    ⟨List.cons_ne_nil c [], hBalanced,
      Nesting.passes_of_forall hBalanced (by simpa using hBlank)⟩

/- Two words without a gap between them are one. -/
theorem IsWord.append
    (hFirst : IsWord v)
    (hSecond : IsWord w) :
    IsWord (v ++ w) := by
  refine
    ⟨List.append_ne_nil_of_left_ne_nil hFirst.some w,
      Text.balanced_append hFirst.balanced hSecond.balanced, ?_⟩
  intro m hMem
  have hMarks : Nesting.outside.marking (v ++ w) = marking v ++ marking w :=
    marking_append w hFirst.balanced
  rw [hMarks] at hMem
  rcases List.mem_append.mp hMem with hMem | hMem
  · exact hFirst.passes m hMem
  · exact hSecond.passes m hMem

/- The words of a text are words, and gaps are between them. -/
theorem isWord_of_wordsOf
    {gap word : Text}
    {rest : List (Text × Text)}
    (hBalanced : Balanced t)
    (hWords : (wordsOf t).list = (gap, word) :: rest) :
    IsWord word ∧ ∀ part ∈ rest, IsGap part.1 ∧ IsWord part.2 := by
  have hSeparates : Words.Separates Nesting.outside (wordsOf t) :=
    Words.separates_ofMarks hBalanced
  rw [Words.Separates, hWords] at hSeparates
  rcases hSeparates with ⟨hSome, hPasses, hRest⟩
  have hAll (part : Text × Text) (hMem : part ∈ (gap, word) :: rest) :
      IsBlank part.1 ∧ Balanced part.2 :=
    Words.balanced_of_mem_list hBalanced (hWords ▸ hMem)
  refine ⟨⟨hSome, (hAll _ List.mem_cons_self).2, hPasses⟩, ?_⟩
  intro part hMem
  rcases hRest part hMem with ⟨hGap, hWord, hPasses'⟩
  rcases hAll part (List.mem_cons_of_mem _ hMem) with ⟨hBlank, hPart⟩
  exact ⟨⟨hGap, hBlank⟩, hWord, hPart, hPasses'⟩

/- The words of a trimmed text are all of it. -/
theorem eq_of_wordsOf
    {gap word : Text}
    {rest : List (Text × Text)}
    (hBalanced : Balanced t)
    (hTrim : trim t = t)
    (hWords : (wordsOf t).list = (gap, word) :: rest) :
    t = word ++ rest.flatMap fun part => part.1 ++ part.2 := by
  have hText := text_wordsOf hBalanced
  rw [Words.text, trailing_wordsOf hBalanced hTrim, hWords] at hText
  have hGap : gap = [] := by
    have hBlank : IsBlank gap :=
      (Words.balanced_of_mem_list hBalanced
        (hWords ▸ List.mem_cons_self)).1
    by_contra hSome
    have hTrimmed := isTrimmed_trim t
    rw [hTrim, ← hText] at hTrimmed
    cases gap with
    | nil => exact hSome rfl
    | cons c gap =>
        have hChar := (isBlank_cons.mp hBlank).1
        simpa [hChar] using hTrimmed.1
  rw [← hText, hGap]
  simp

end Text

------------------------------------------------------------
-- Parts of a Name
------------------------------------------------------------

namespace Name

variable {t v w name : Text}

/- A point at the top level is behind the qualifier. -/
theorem qualified_point
    (hBalanced : Text.Balanced v)
    (hPasses : Nesting.outside.Passes (fun c => c == '.') v)
    (hTrim : Text.trim (v ++ '.' :: w) = v ++ '.' :: w) :
    qualified (v ++ '.' :: w) = .ok (some (unquote v), unquote w) := by
  have hStop :=
    Stop.atTop_of_passes hBalanced hPasses
      (Or.inr ⟨'.', w, rfl, by decide, rfl⟩ :
        Stop.Halts (fun c => c == '.') ('.' :: w))
  have hSince :
      Cursor.since (Cursor.ofText (v ++ '.' :: w))
        ⟨v ++ '.' :: w, '.' :: w, 0⟩ = v :=
    Cursor.since_of_append rfl
  rw [qualified]
  simp only [hTrim, Cursor.ofText, hStop, Cursor.moveTo, if_true,
    Except.map] at hSince ⊢
  rw [hSince]

/- Every balanced text has the parts of a name. -/
theorem qualified_cases
    (hBalanced : Text.Balanced t)
    (hTrim : Text.trim t = t) :
    qualified t = .ok (none, unquote t) ∨
      ∃ v w,
        t = v ++ '.' :: w ∧
          qualified t = .ok (some (unquote v), unquote w) := by
  rcases Stop.exists_atTop (fun c => c == '.') hBalanced
    with ⟨v, rest, rfl, hFront, -, hPasses, hHalts, -⟩
  rcases hHalts with rfl | ⟨c, w, rfl, -, hPoint⟩
  · rw [List.append_nil] at hTrim ⊢
    exact .inl (qualified_of_passes hTrim hFront hPasses)
  · rw [beq_iff_eq] at hPoint
    subst hPoint
    exact .inr ⟨v, w, rfl, qualified_point hFront hPasses hTrim⟩

/- A comma in the text of a name is in the name. -/
theorem comma_mem_unquote
    (hMem : ',' ∈ t) :
    ',' ∈ unquote t := by
  apply mem_unquote (by decide) (by decide)
  have hNone {b : Text} (hBlank : Text.IsBlank b) : ',' ∉ b := by
    intro hIn
    exact absurd (Text.isBlank_iff.mp hBlank ',' hIn) (by decide)
  rcases Text.exists_blanks_trim t with ⟨b, b', hBlank, hBlank', hText⟩
  rw [hText, List.mem_append, List.mem_append] at hMem
  exact
    (hMem.resolve_right (hNone hBlank')).resolve_left (hNone hBlank)

/- A comma in the text of a name is in one of its parts. -/
theorem comma_mem_of_qualified
    {qualifier : Option Text}
    (hBalanced : Text.Balanced t)
    (hTrim : Text.trim t = t)
    (hParts : qualified t = .ok (qualifier, name))
    (hMem : ',' ∈ t) :
    ',' ∈ name ∨ ∃ q, qualifier = some q ∧ ',' ∈ q := by
  rcases qualified_cases hBalanced hTrim
    with hNone | ⟨v, w, rfl, hSome⟩
  · rw [hParts] at hNone
    cases hNone
    exact .inl (comma_mem_unquote hMem)
  · rw [hParts] at hSome
    cases hSome
    rw [List.mem_append, List.mem_cons] at hMem
    rcases hMem with hFront | hPoint | hBehind
    · exact .inr ⟨_, rfl, comma_mem_unquote hFront⟩
    · exact absurd hPoint (by decide)
    · exact .inl (comma_mem_unquote hBehind)

end Name

------------------------------------------------------------
-- Tables in Words
------------------------------------------------------------

namespace Table

variable {clause name keyword v w b b' : Text}
variable {aliasName : Option Text}
variable {table : Table}

/-
  The text is a name and the alias behind it, or a name alone.
  AS stands between the two, or does not.
-/
inductive IsCutInto : Text → Text → Option Text → Prop where
  | alone
      {name : Text}
      (hName : Text.IsWord name) :
      IsCutInto name name none
  | named
      {name gap a : Text}
      (hName : Text.IsWord name)
      (hGap : Text.IsGap gap)
      (hAlias : Text.IsWord a) :
      IsCutInto (name ++ (gap ++ a)) name (some a)
  | namedAs
      {name gap keyword gap' a : Text}
      (hName : Text.IsWord name)
      (hGap : Text.IsGap gap)
      (hKeyword : Text.SameWord keyword "AS".toList)
      (hGap' : Text.IsGap gap')
      (hAlias : Text.IsWord a) :
      IsCutInto (name ++ (gap ++ (keyword ++ (gap' ++ a)))) name (some a)

theorem isWord_of_as
    (hKeyword : Text.SameWord keyword "AS".toList) :
    Text.IsWord keyword :=
  Text.isWord_of_isLetters (Text.isLetters_of_sameWord hKeyword (by decide))

/- The words of a table tell its name and its alias. -/
theorem IsCutInto.cutAlias?_eq
    (hCut : IsCutInto clause name aliasName) :
    cutAlias? (Text.wordsOf clause).words = some (name, aliasName) := by
  cases hCut with
  | alone hName =>
      rw [hName.wordsOf_eq]
      rfl
  | named hName hGap hAlias =>
      rw [Text.words_wordsOf_append _ hName.balanced hGap.1 hGap.2,
        hName.wordsOf_eq, hAlias.wordsOf_eq]
      rfl
  | namedAs hName hGap hKeyword hGap' hAlias =>
      have hWord := isWord_of_as hKeyword
      rw [Text.words_wordsOf_append _ hName.balanced hGap.1 hGap.2,
        Text.words_wordsOf_append _ hWord.balanced hGap'.1 hGap'.2,
        hName.wordsOf_eq, hWord.wordsOf_eq, hAlias.wordsOf_eq]
      exact if_pos hKeyword

/- And only such words do. -/
theorem cutAlias?_eq_some_iff
    (hBalanced : Text.Balanced clause)
    (hTrim : Text.trim clause = clause) :
    cutAlias? (Text.wordsOf clause).words = some (name, aliasName) ↔
      IsCutInto clause name aliasName := by
  refine ⟨fun hCut => ?_, IsCutInto.cutAlias?_eq⟩
  rcases hList : (Text.wordsOf clause).list with _ | ⟨⟨gap, word⟩, rest⟩
  · rw [Words.words, hList] at hCut
    cases hCut
  · have hText := Text.eq_of_wordsOf hBalanced hTrim hList
    rcases Text.isWord_of_wordsOf hBalanced hList with ⟨hFirst, hRest⟩
    rw [Words.words, hList] at hCut
    rcases rest with
      _ | ⟨⟨gap', second⟩, _ | ⟨⟨gap'', third⟩, _ | ⟨part, rest⟩⟩⟩
    · cases hCut
      simp only [List.flatMap_nil, List.append_nil] at hText
      rw [hText]
      exact .alone hFirst
    · cases hCut
      rcases hRest _ List.mem_cons_self with ⟨hGap, hSecond⟩
      simp only [List.flatMap_cons, List.flatMap_nil, List.append_nil]
        at hText
      rw [hText]
      exact .named hFirst hGap hSecond
    · rw [List.map_cons, List.map_cons, List.map_cons, List.map_nil,
        cutAlias?, Option.ite_none_right_eq_some] at hCut
      rcases hCut with ⟨hKeyword, hCut⟩
      cases hCut
      rcases hRest _ List.mem_cons_self with ⟨hGap, -⟩
      rcases hRest _ (List.mem_cons_of_mem _ List.mem_cons_self)
        with ⟨hGap', hThird⟩
      simp only [List.flatMap_cons, List.flatMap_nil, List.append_nil,
        List.append_assoc] at hText
      rw [hText]
      exact .namedAs hFirst hGap hKeyword hGap' hThird
    · cases hCut

theorem IsCutInto.isWord_name
    (hCut : IsCutInto clause name aliasName) :
    Text.IsWord name := by
  cases hCut <;> assumption

theorem IsCutInto.ne_nil
    (hCut : IsCutInto clause name aliasName) :
    clause ≠ [] := by
  cases hCut with
  | alone hName => exact hName.some
  | named hName => exact List.append_ne_nil_of_left_ne_nil hName.some _
  | namedAs hName => exact List.append_ne_nil_of_left_ne_nil hName.some _

/- It begins and ends with words. -/
theorem IsCutInto.isTrimmed
    (hCut : IsCutInto clause name aliasName) :
    Text.IsTrimmed clause := by
  have hWord {w : Text} (hIs : Text.IsWord w) : Text.IsTrimmed w :=
    hIs.trim_eq ▸ Text.isTrimmed_trim w
  cases hCut with
  | alone hName => exact hWord hName
  | named hName _ hAlias =>
      exact
        Text.isTrimmed_append_append _ hName.some hAlias.some
          (hWord hName) (hWord hAlias)
  | @namedAs _ gap keyword gap' a hName _ _ _ hAlias =>
      have hText :
          gap ++ (keyword ++ (gap' ++ a)) =
            (gap ++ (keyword ++ gap')) ++ a := by
        simp
      rw [hText]
      exact
        Text.isTrimmed_append_append _ hName.some hAlias.some
          (hWord hName) (hWord hAlias)

/- The text is read by the name and the alias that it is cut into. -/
theorem ofText_of_isCutInto
    (hBalanced : Text.Balanced clause)
    (hCut : IsCutInto clause name aliasName) :
    ofText clause = ofName clause aliasName name := by
  rw [ofText, Text.topWords_eq hBalanced]
  simp only [bind, Except.bind, hCut.cutAlias?_eq]

/- A text that is not cut into these is refused. -/
theorem ofText_of_not_isCutInto
    (hBalanced : Text.Balanced clause)
    (hTrim : Text.trim clause = clause)
    (hNone : ∀ name aliasName, ¬ IsCutInto clause name aliasName) :
    ofText clause = .error (.malformed (.severalTables clause)) := by
  rw [ofText, Text.topWords_eq hBalanced]
  cases hCut : cutAlias? (Text.wordsOf clause).words with
  | none => simp only [bind, Except.bind, hCut]
  | some found =>
      exact
        absurd ((cutAlias?_eq_some_iff hBalanced hTrim).mp hCut)
          (hNone _ _)

/- A part of the name is empty. -/
def IsUnnamed
    (parts : Option Text × Text) : Prop :=
  parts.2 = [] ∨ parts.1 = some []

instance
    (parts : Option Text × Text) :
    Decidable (IsUnnamed parts) := by
  unfold IsUnnamed
  infer_instance

/- A name makes a table unless a part of it is empty. -/
theorem ofName_eq
    {parts : Option Text × Text}
    (clause : Text)
    (aliasName : Option Text)
    (hParts : Name.qualified name = .ok parts) :
    ofName clause aliasName name =
      if IsUnnamed parts then
        .error (.malformed (.emptyTableName clause))
      else .ok ⟨parts.1, parts.2, aliasName.map Name.unquote⟩ := by
  rw [ofName, hParts]
  rfl

/- What a text is read as, whether it is that of a table or not. -/
theorem ofText_cases
    (hBalanced : Text.Balanced clause)
    (hTrim : Text.trim clause = clause) :
    (∃ name aliasName parts,
      IsCutInto clause name aliasName ∧
        Name.qualified name = .ok parts ∧
        ofText clause =
          if IsUnnamed parts then
            .error (.malformed (.emptyTableName clause))
          else .ok ⟨parts.1, parts.2, aliasName.map Name.unquote⟩) ∨
      (∀ name aliasName, ¬ IsCutInto clause name aliasName) ∧
        ofText clause = .error (.malformed (.severalTables clause)) := by
  by_cases hSome : ∃ name aliasName, IsCutInto clause name aliasName
  · rcases hSome with ⟨name, aliasName, hCut⟩
    have hName := hCut.isWord_name
    rcases Name.exists_qualified hName.balanced with ⟨parts, hParts⟩
    refine .inl ⟨name, aliasName, parts, hCut, hParts, ?_⟩
    rw [ofText_of_isCutInto hBalanced hCut,
      ofName_eq clause aliasName hParts]
  · push Not at hSome
    exact .inr ⟨hSome, ofText_of_not_isCutInto hBalanced hTrim hSome⟩

/- The table of a text is the one that its words name. -/
theorem ofText_eq_ok_iff
    (hBalanced : Text.Balanced clause)
    (hTrim : Text.trim clause = clause) :
    ofText clause = .ok table ↔
      ∃ name aliasName,
        IsCutInto clause name aliasName ∧
          Name.qualified name = .ok (table.qualifier, table.service) ∧
          ¬ IsUnnamed (table.qualifier, table.service) ∧
          table.aliasName = aliasName.map Name.unquote := by
  constructor
  · intro hRead
    rcases ofText_cases hBalanced hTrim
      with ⟨name, aliasName, parts, hCut, hParts, hText⟩ | ⟨-, hText⟩
    · rw [hRead] at hText
      split_ifs at hText with hUnnamed
      cases hText
      exact ⟨name, aliasName, hCut, hParts, hUnnamed, rfl⟩
    · rw [hRead] at hText
      cases hText
  · rintro ⟨name, aliasName, hCut, hParts, hNamed, hAlias⟩
    rw [ofText_of_isCutInto hBalanced hCut,
      ofName_eq clause aliasName hParts, if_neg hNamed, ← hAlias]

/- A text is no single table if it is not cut into one. -/
theorem ofText_eq_severalTables_iff
    (hBalanced : Text.Balanced clause)
    (hTrim : Text.trim clause = clause) :
    ofText clause = .error (.malformed (.severalTables clause)) ↔
      ∀ name aliasName, ¬ IsCutInto clause name aliasName := by
  rcases ofText_cases hBalanced hTrim
    with ⟨name, aliasName, parts, hCut, -, hText⟩ | ⟨hNone, hText⟩
  · constructor
    · intro hRefused
      rw [hRefused] at hText
      split_ifs at hText
      cases hText
    · exact fun hNone => absurd hCut (hNone name aliasName)
  · exact ⟨fun _ => hNone, fun _ => hText⟩

/- A name with an empty part is the only other thing refused. -/
theorem ofText_error
    {e : Error}
    (hBalanced : Text.Balanced clause)
    (hTrim : Text.trim clause = clause)
    (hError : ofText clause = .error e) :
    e = .malformed (.severalTables clause) ∨
      e = .malformed (.emptyTableName clause) ∧
        ∃ name aliasName parts,
          IsCutInto clause name aliasName ∧
            Name.qualified name = .ok parts ∧ IsUnnamed parts := by
  rcases ofText_cases hBalanced hTrim
    with ⟨name, aliasName, parts, hCut, hParts, hText⟩ | ⟨-, hText⟩
  · rw [hError] at hText
    split_ifs at hText with hUnnamed
    cases hText
    exact .inr ⟨rfl, name, aliasName, parts, hCut, hParts, hUnnamed⟩
  · rw [hError] at hText
    cases hText
    exact .inl rfl

------------------------------------------------------------
-- Commas
------------------------------------------------------------

/- The names that a table goes by. -/
def names
    (table : Table) : List Text :=
  table.qualifier.toList ++ table.service :: table.aliasName.toList

/- A comma is in the name of a table or in its alias. -/
theorem IsCutInto.comma_mem
    (hCut : IsCutInto clause name aliasName)
    (hMem : ',' ∈ clause) :
    ',' ∈ name ∨ ∃ a, aliasName = some a ∧ ',' ∈ a := by
  have hNoGap {gap : Text} (hGap : Text.IsGap gap) : ',' ∉ gap := by
    intro hIn
    exact absurd (Text.isBlank_iff.mp hGap.2 ',' hIn) (by decide)
  cases hCut with
  | alone hName => exact .inl hMem
  | named hName hGap hAlias =>
      simp only [List.mem_append, hNoGap hGap, false_or] at hMem
      exact hMem.imp_right fun hIn => ⟨_, rfl, hIn⟩
  | namedAs hName hGap hKeyword hGap' hAlias =>
      have hNoKeyword : ',' ∉ _ := fun hIn =>
        absurd
          (Text.isAlpha_of_mem
            (Text.isLetters_of_sameWord hKeyword (by decide)) hIn)
          (by decide)
      simp only [List.mem_append, hNoGap hGap, hNoGap hGap', hNoKeyword,
        false_or] at hMem
      exact hMem.imp_right fun hIn => ⟨_, rfl, hIn⟩

/- A comma in the text of a table is in one of its names. -/
theorem exists_comma_of_ofText
    (hBalanced : Text.Balanced clause)
    (hTrim : Text.trim clause = clause)
    (hRead : ofText clause = .ok table)
    (hMem : ',' ∈ clause) :
    ∃ name ∈ table.names, ',' ∈ name := by
  rcases (ofText_eq_ok_iff hBalanced hTrim).mp hRead
    with ⟨name, aliasName, hCut, hParts, -, hAlias⟩
  have hName := hCut.isWord_name
  rcases hCut.comma_mem hMem with hIn | ⟨a, rfl, hIn⟩
  · rcases Name.comma_mem_of_qualified hName.balanced hName.trim_eq
        hParts hIn
      with hService | ⟨q, hQualifier, hComma⟩
    · exact ⟨table.service, by simp [names], hService⟩
    · exact ⟨q, by simp [names, hQualifier], hComma⟩
  · exact
      ⟨Name.unquote a, by simp [names, hAlias],
        Name.comma_mem_unquote hIn⟩

/-
  Two words with a comma between them are refused if blanks
  are on both sides of it, and are one word or two otherwise.
-/
theorem isCutInto_pair_iff
    (hFirst : Text.IsWord v)
    (hBlank : Text.IsBlank b)
    (hBlank' : Text.IsBlank b')
    (hSecond : Text.IsWord w) :
    (∃ name aliasName,
      IsCutInto (v ++ (b ++ ',' :: (b' ++ w))) name aliasName) ↔
      b = [] ∨ b' = [] := by
  have hComma : Text.IsWord [','] :=
    Text.isWord_singleton (by decide) (by decide)
  constructor
  · rintro ⟨name, aliasName, hCut⟩
    by_contra hBoth
    push Not at hBoth
    have hWords := hCut.cutAlias?_eq
    rw [← List.singleton_append,
      Text.words_wordsOf_append _ hFirst.balanced hBoth.1 hBlank,
      Text.words_wordsOf_append _ hComma.balanced hBoth.2 hBlank',
      hFirst.wordsOf_eq, hComma.wordsOf_eq, hSecond.wordsOf_eq]
      at hWords
    cases hWords
  · by_cases hLeft : b = []
    · intro _
      by_cases hRight : b' = []
      · refine ⟨_, _, .alone ?_⟩
        rw [hLeft, hRight]
        exact hFirst.append (hComma.append hSecond)
      · refine ⟨v ++ [','], some w, ?_⟩
        have hCut : IsCutInto ((v ++ [',']) ++ (b' ++ w)) _ _ :=
          .named (hFirst.append hComma) ⟨hRight, hBlank'⟩ hSecond
        rw [hLeft]
        simpa using hCut
    · intro hEither
      rw [hEither.resolve_left hLeft]
      exact
        ⟨v, some (',' :: w),
          .named hFirst ⟨hLeft, hBlank⟩ (hComma.append hSecond)⟩

end Table

------------------------------------------------------------
-- Queries on Several Tables
------------------------------------------------------------

/- The text of a clause is trimmed and balanced. -/
theorem Clause.trim_of_text
    {clause : Clause}
    {t found : Text}
    (hText : clause.text t = .ok found) :
    Text.Balanced found ∧ Text.trim found = found := by
  have hBalanced : Text.Balanced t := by
    by_contra hNot
    rw [text, text?_of_not_balanced clause hNot] at hText
    cases hText
  refine ⟨balanced_text hBalanced hText, ?_⟩
  rcases bind_eq_ok_iff.mp hText with ⟨found?, hFound, hRest⟩
  cases found? with
  | none => cases hRest
  | some part =>
      cases hRest
      rcases exists_first_of_text? hBalanced hFound
        with ⟨front, keyword, after, hFirst⟩
      rcases exists_until_of_first hBalanced hFirst
        with ⟨u, -, hRead⟩
      rw [hFound, Text.nonblank?] at hRead
      have hTrim := Except.ok.inj hRead
      split_ifs at hTrim
      cases hTrim
      exact Text.trim_trim u

namespace Query

variable {t clause : Text}

/- A query is read as far as its table is. -/
theorem ofText_eq_of_clause
    (hClause : Clause.table.text t = .ok clause) :
    ofText t =
      (Table.ofText clause).map fun table => ⟨t, clause, table, none⟩ := by
  rw [ofText, hClause]
  simp only [bind, Except.bind]
  cases Table.ofText clause <;> rfl

theorem ofText_eq_error_iff
    {e : Error}
    (hClause : Clause.table.text t = .ok clause) :
    ofText t = .error e ↔ Table.ofText clause = .error e := by
  rw [ofText_eq_of_clause hClause]
  cases Table.ofText clause <;> simp [Except.map]

/-
  A list of tables is refused if it is not cut into words like
  a single table, and if it is, only for a name with an empty
  part. Where it is accepted, the comma is in the names of the
  table. Of two tables without aliases the list is refused for
  its words if blanks are on both sides of the comma.
-/
theorem ofText_of_comma
    (hClause : Clause.table.text t = .ok clause)
    (hComma : ¬ Text.NoneAtTop ',' clause) :
    (ofText t = .error (.malformed (.severalTables clause)) ↔
      ∀ name aliasName, ¬ Table.IsCutInto clause name aliasName) ∧
    (∀ e,
      ofText t = .error e →
        e = .malformed (.severalTables clause) ∨
          e = .malformed (.emptyTableName clause) ∧
            ∃ name aliasName parts,
              Table.IsCutInto clause name aliasName ∧
                Name.qualified name = .ok parts ∧
                Table.IsUnnamed parts) ∧
    (∀ q,
      ofText t = .ok q → ∃ name ∈ q.table.names, ',' ∈ name) ∧
    ∀ v b b' w,
      clause = v ++ (b ++ ',' :: (b' ++ w)) →
        Text.IsWord v → Text.IsBlank b → Text.IsBlank b' →
        Text.IsWord w →
          (ofText t = .error (.malformed (.severalTables clause)) ↔
            b ≠ [] ∧ b' ≠ []) := by
  rcases Clause.trim_of_text hClause with ⟨hBalanced, hTrim⟩
  have hSeveral :
      ofText t = .error (.malformed (.severalTables clause)) ↔
        ∀ name aliasName, ¬ Table.IsCutInto clause name aliasName := by
    rw [ofText_eq_error_iff hClause,
      Table.ofText_eq_severalTables_iff hBalanced hTrim]
  refine ⟨hSeveral, fun e hError => ?_, fun q hRead => ?_, ?_⟩
  · exact
      Table.ofText_error hBalanced hTrim
        ((ofText_eq_error_iff hClause).mp hError)
  · have hMem : ',' ∈ clause := by
      rw [Text.NoneAtTop] at hComma
      push Not at hComma
      rcases hComma with ⟨m, hMark, -, hChar⟩
      rw [← Text.text_marking hBalanced, ← hChar]
      exact List.mem_map_of_mem hMark
    rw [ofText_eq_of_clause hClause, map_eq_ok_iff] at hRead
    rcases hRead with ⟨table, hTable, rfl⟩
    exact Table.exists_comma_of_ofText hBalanced hTrim hTable hMem
  · rintro v b b' w rfl hFirst hBlank hBlank' hSecond
    have hPair := Table.isCutInto_pair_iff hFirst hBlank hBlank' hSecond
    rw [hSeveral, ← not_or, ← hPair]
    push Not
    rfl

/- Blanks on both sides of the comma. -/
theorem ofText_of_comma_spaced :
    Clause.table.text "SELECT A FROM S , T".toList =
        .ok "S , T".toList ∧
      ¬ Text.NoneAtTop ',' "S , T".toList ∧
      ofText "SELECT A FROM S , T".toList =
        .error (.malformed (.severalTables "S , T".toList)) := by
  have hClause :
      Clause.table.text "SELECT A FROM S , T".toList =
        .ok "S , T".toList := by
    decide +kernel
  have hComma : ¬ Text.NoneAtTop ',' "S , T".toList := fun hNone =>
    hNone ⟨',', true⟩ (by decide) ⟨rfl, rfl⟩
  rcases ofText_of_comma hClause hComma with ⟨-, -, -, hPair⟩
  refine ⟨hClause, hComma, ?_⟩
  exact
    (hPair "S".toList [' '] [' '] "T".toList rfl
      (Text.isWord_of_isLetters (by decide)) (by decide) (by decide)
      (Text.isWord_of_isLetters (by decide))).mpr
      ⟨by decide, by decide⟩

/- The second of two tables is taken for an alias of the first. -/
theorem not_forall_refused_of_comma :
    ¬ ∀ t clause,
      Clause.table.text t = .ok clause →
        ¬ Text.NoneAtTop ',' clause →
          ∃ malformation, ofText t = .error (.malformed malformation) := by
  intro hAll
  have hComma : ¬ Text.NoneAtTop ',' "a, b".toList := fun hNone =>
    hNone ⟨',', true⟩ (by decide) ⟨rfl, rfl⟩
  have hRead :
      ofText "SELECT * FROM a, b".toList =
        .ok
          ⟨"SELECT * FROM a, b".toList, "a, b".toList,
            ⟨none, "a,".toList, some "b".toList⟩, none⟩ := by
    decide +kernel
  rcases
      hAll "SELECT * FROM a, b".toList "a, b".toList (by decide +kernel)
        hComma
    with ⟨malformation, hRefused⟩
  rw [hRead] at hRefused
  cases hRefused

end Query

end SqlSelect
