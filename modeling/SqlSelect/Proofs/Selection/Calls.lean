import SqlSelect.Proofs.Selection.Items

/-
  Calls of functions. A call is a name and a group, with
  blanks between them or without. Lists take it whole in
  either case. As an operand it is taken whole only without
  the blanks, and with them it is cut behind the name and is
  no part of any comparison.

  Main statements:
    * `Text.IsCall`
    * `Text.exists_isCall`
    * `Text.IsCall.isWhole`
    * `Text.IsCall.isPart_append`
    * `Item.readItem_call`
    * `Predicate.ofText_call_ne_ok`
-/

namespace SqlSelect

------------------------------------------------------------
-- Groups That Are Read
------------------------------------------------------------

/-
  A walk that gets to the end of its group has gone over a
  balanced text, by induction on what it goes over.
-/
theorem Stop.exists_of_reached
    {n : Nesting}
    {t : Text}
    (hReached :
      (afterGroup n.closer (n.depth + 1) t).reached = true) :
    ∃ s rest,
      t = s ++ ')' :: rest ∧ n.run s = some Nesting.outside := by
  induction t generalizing n with
  | nil => simp [afterGroup] at hReached
  | cons c t ih =>
      cases hStep : n.step c with
      | none =>
          rcases Nesting.step_eq_none_iff.mp hStep with ⟨rfl, rfl⟩
          exact ⟨[], t, rfl, rfl⟩
      | some next =>
          rw [afterGroup_cons t hStep] at hReached
          rcases ih hReached with ⟨s, rest, rfl, hRun⟩
          refine ⟨c :: s, rest, rfl, ?_⟩
          rw [Nesting.run_cons, hStep]
          exact hRun

/- What is read of a group is balanced and stands in parentheses. -/
theorem Cursor.exists_of_group
    {s after : Cursor}
    {interior : Text}
    (hOpens : s.next? = some '(')
    (hGroup : s.group = .ok (interior, after)) :
    s.rest = '(' :: (interior ++ ')' :: after.rest) ∧
      Text.Balanced interior := by
  rcases map_eq_ok_iff.mp hGroup with ⟨⟨⟩, hPassed, -⟩
  have hReached : (Stop.afterGroup none 0 s.rest).reached = true := by
    by_contra hNot
    simp [hNot] at hPassed
  cases hRest : s.rest with
  | nil => simp [next?, hRest] at hOpens
  | cons c t =>
      have hParen : c = '(' := by simpa [next?, hRest] using hOpens
      subst hParen
      rw [hRest] at hReached
      rcases Stop.exists_of_reached (n := Nesting.outside) hReached
        with ⟨inner, rest, rfl, hBalanced⟩
      rw [group_eq hRest hBalanced] at hGroup
      cases hGroup
      exact ⟨rfl, hBalanced⟩

/- Blanks in front of a part make no difference. -/
theorem Condition.isPart_blank_append
    {b t : Text}
    (hBlank : Text.IsBlank b)
    (hPart : IsPart t) :
    IsPart (b ++ t) := by
  have hBlanks := Text.balanced_of_isBlank hBlank
  refine ⟨Text.balanced_append hBlanks hPart.balanced, ?_, ?_⟩
  · rw [Text.IsFree, Text.cutOf_blank_append
      (by simpa using isLetters_or) hBlank hPart.balanced,
      hPart.free_or]
    rfl
  · rw [Text.IsFree, Text.cutOf_blank_append
      (by simpa using isLetters_and) hBlank hPart.balanced,
      hPart.free_and]
    rfl

------------------------------------------------------------
-- The Shape of a Call
------------------------------------------------------------

namespace Text

/-
  The text is a name, blanks or none, and an argument between
  parentheses.
-/
structure IsCall
    (x name gap argument : Text) : Prop where
  text : x = name ++ (gap ++ '(' :: (argument ++ [')']))
  nonempty : name ≠ []
  names : ∀ c ∈ name, isNameChar c = true
  blank : IsBlank gap
  balanced : Balanced argument

/- A text that is read as a call is one, with blanks behind. -/
theorem exists_isCall_append
    {x name argument : Text}
    (hCall : call? x = .ok (some (name, argument))) :
    ∃ s gap b,
      x = s ++ b ∧ IsBlank b ∧ IsCall s name gap argument := by
  simp only [call?, Cursor.word_eq, Cursor.ofText] at hCall
  split_ifs at hCall with hOpens
  · rcases map_eq_ok_iff.mp hCall with ⟨⟨interior, after⟩, hGroup, hEq⟩
    simp only [Option.ite_none_right_eq_some, Option.some.injEq,
      Prod.mk.injEq] at hEq
    rcases hEq with ⟨hBlank, rfl, rfl⟩
    rcases Cursor.exists_of_group (eq_of_beq hOpens.2) hGroup
      with ⟨hRest, hBalanced⟩
    have hGap := takeWhile_append_trimStart (x.dropWhile isNameChar)
    have hRest' :
        trimStart (x.dropWhile isNameChar) =
          '(' :: (interior ++ ')' :: after.rest) := hRest
    rw [hRest'] at hGap
    have hText :
        x =
          x.takeWhile isNameChar ++
            ((x.dropWhile isNameChar).takeWhile SqlSelect.isBlank ++
              '(' :: (interior ++ [')'])) ++ after.rest := by
      conv_lhs =>
        rw [← List.takeWhile_append_dropWhile (p := isNameChar) (l := x),
          ← hGap]
      simp
    refine
      ⟨_, (x.dropWhile isNameChar).takeWhile SqlSelect.isBlank,
        after.rest, hText, hBlank, rfl, ?_,
        fun c hMem => List.mem_takeWhile_imp hMem,
        isBlank_takeWhile _, hBalanced⟩
    simpa using hOpens.1
  · cases hCall

/- A text that is read as a call has the shape of one. -/
theorem exists_isCall
    {x name argument : Text}
    (hTrim : trim x = x)
    (hCall : call? x = .ok (some (name, argument))) :
    ∃ gap, IsCall x name gap argument := by
  rcases exists_isCall_append hCall
    with ⟨s, gap, b, rfl, hBlank, hShape⟩
  rw [eq_nil_of_trim hTrim hBlank, List.append_nil]
  exact ⟨gap, hShape⟩

namespace IsCall

variable {x name gap argument : Text}

theorem balanced_name
    (hCall : IsCall x name gap argument) :
    Balanced name :=
  balanced_of_plain fun c hMem =>
    not_isDelimiter_of_isNameChar (hCall.names c hMem)

theorem balanced_text
    (hCall : IsCall x name gap argument) :
    Balanced x := by
  rw [hCall.text]
  exact
    balanced_append hCall.balanced_name
      (balanced_append (balanced_of_isBlank hCall.blank)
        (balanced_group hCall.balanced))

theorem ne_nil
    (hCall : IsCall x name gap argument) :
    x ≠ [] := by
  rw [hCall.text]
  exact List.append_ne_nil_of_left_ne_nil hCall.nonempty _

theorem getLast?_eq
    (hCall : IsCall x name gap argument) :
    x.getLast? = some ')' := by
  have hText :
      x = name ++ (gap ++ '(' :: argument) ++ [')'] := by
    rw [hCall.text]
    simp
  rw [hText, List.getLast?_append]
  rfl

theorem trim_eq
    (hCall : IsCall x name gap argument) :
    trim x = x := by
  apply trim_eq_of_isTrimmed
  constructor
  · have hSome := hCall.nonempty
    have hNames := hCall.names
    rw [hCall.text, List.head?_append_of_ne_nil _ hSome]
    cases name with
    | nil => exact absurd rfl hSome
    | cons c name =>
        simpa using
          isBlank_eq_false_of_isNameChar (hNames c List.mem_cons_self)
  · rw [hCall.getLast?_eq]
    decide

/- The name is the word in front of the call. -/
theorem leadingWord_eq
    (hCall : IsCall x name gap argument) :
    leadingWord x = name := by
  rw [leadingWord, hCall.text]
  exact
    takeWhile_isNameChar_append hCall.names
      (head?_of_endsAfter (endsAfter_open _ hCall.blank))

/- What follows does not make the name longer. -/
theorem leadingWord_append
    (hCall : IsCall x name gap argument)
    (rest : Text) :
    leadingWord (x ++ rest) = name := by
  have hOpen : isNameChar '(' = false := by decide +kernel
  have hEnds : x.any (fun c => !isNameChar c) = true := by
    rw [hCall.text]
    simp [hOpen]
  rw [Text.leadingWord_append rest hEnds, hCall.leadingWord_eq]

/- A call does not begin with a parenthesis. -/
theorem head?_append_ne
    (hCall : IsCall x name gap argument)
    (rest : Text) :
    (x ++ rest).head? ≠ some '(' := by
  have hOpen : isNameChar '(' = false := by decide +kernel
  intro hHead
  have hWord := hCall.leadingWord_append rest
  rw [← List.cons_head?_tail hHead, leadingWord,
    List.takeWhile_cons_of_neg (by simp [hOpen])] at hWord
  exact hCall.nonempty hWord.symm

/- Nothing that ends an operand stands in the name. -/
theorem passes_name
    (hCall : IsCall x name gap argument) :
    Nesting.outside.Passes Cursor.endsOperand name :=
  Nesting.passes_of_forall hCall.balanced_name fun c hMem => by
    simp [Cursor.endsOperand,
      isBlank_eq_false_of_isNameChar (hCall.names c hMem),
      isSymbol_eq_false_of_isNameChar (hCall.names c hMem)]

theorem isLeft_name
    (hCall : IsCall x name gap argument) :
    Predicate.IsLeft name :=
  ⟨hCall.nonempty, hCall.balanced_name, hCall.passes_name⟩

theorem isLeft_group
    (hCall : IsCall x name gap argument) :
    Predicate.IsLeft ('(' :: (argument ++ [')'])) :=
  Predicate.isLeft_of_hidden (by simp) (balanced_group hCall.balanced)
    (hidden_group hCall.balanced)

/- There is no comma at the top level of a call. -/
theorem noComma
    (hCall : IsCall x name gap argument) :
    NoneAtTop ',' x := by
  have hComma : isNameChar ',' = false := by decide +kernel
  have hName : NoneAtTop ',' name := by
    apply noneAtTop_of_notMem hCall.balanced_name
    intro hMem
    simp [hCall.names _ hMem] at hComma
  have hGap : NoneAtTop ',' gap := by
    apply noneAtTop_of_notMem (balanced_of_isBlank hCall.blank)
    intro hMem
    exact absurd (isBlank_iff.mp hCall.blank _ hMem) (by decide)
  rw [hCall.text]
  exact
    noneAtTop_append hCall.balanced_name hName
      (noneAtTop_append (balanced_of_isBlank hCall.blank) hGap
        (noneAtTop_of_hidden ',' (hidden_group hCall.balanced)))

/- Without blanks in front of its group a call is left whole. -/
theorem isWhole
    (hCall : IsCall x name [] argument)
    (hAvoids : Name.Avoids guardWords name) :
    IsWhole x := by
  have hOpen : isNameChar '(' = false := by decide +kernel
  have hText : x = name ++ '(' :: (argument ++ [')']) := hCall.text
  have hPasses : Nesting.outside.Passes Cursor.endsOperand x := by
    intro m hMem hTop
    have hMarks :=
      marking_append ('(' :: (argument ++ [')'])) hCall.balanced_name
    rw [hText] at hMem
    change m ∈ marking _ at hMem
    rw [hMarks] at hMem
    rcases List.mem_append.mp hMem with h | h
    · exact hCall.passes_name m h hTop
    · exact hCall.isLeft_group.passes m h hTop
  refine
    ⟨⟨hCall.ne_nil, hCall.balanced_text, hPasses⟩, hCall.trim_eq,
      hCall.noComma, ?_, ?_, ?_⟩
  · have hHead := hCall.head?_append_ne []
    rwa [List.append_nil] at hHead
  · rw [hText]
    simp [hOpen]
  · rw [hCall.leadingWord_eq]
    exact hAvoids

------------------------------------------------------------
-- Calls in Conditions
------------------------------------------------------------

/- No keyword of a condition begins in a call or behind it. -/
theorem isPart_append
    {rest : Text}
    (hCall : IsCall x name gap argument)
    (hAvoids : Name.Avoids ["AND".toList, "OR".toList] name)
    (hBlank : rest.head?.any SqlSelect.isBlank = true)
    (hPart : Condition.IsPart rest) :
    Condition.IsPart (x ++ rest) := by
  let group : Text := '(' :: (argument ++ [')'])
  have hGroup : Balanced group := balanced_group hCall.balanced
  have hBehind : Condition.IsPart (group ++ rest) := by
    rw [Condition.isPart_append_iff hGroup hPart.balanced
      fun _ => Or.inr (Or.inl hBlank)]
    exact
      ⟨Condition.isPart_of_hidden hGroup (hidden_group hCall.balanced),
        hPart⟩
  have hGap : Condition.IsPart (gap ++ (group ++ rest)) :=
    Condition.isPart_blank_append hCall.blank hBehind
  have hText : x ++ rest = name ++ (gap ++ (group ++ rest)) := by
    rw [hCall.text]
    simp [group]
  have hStop : (gap ++ (group ++ rest)).head?.any isNameChar = false :=
    head?_of_endsAfter
      (endsAfter_open (argument ++ [')'] ++ rest) hCall.blank)
  have hFree
      {word : Text}
      (hLetters : IsLetters word)
      (hOther : ¬ SameWord name word)
      (hFreeGap : IsFree [word] (gap ++ (group ++ rest))) :
      IsFree [word] (x ++ rest) := by
    rw [hText]
    exact
      isFree_name_append hLetters hCall.names hOther hStop hGap.balanced
        hFreeGap
  rcases Name.avoids_pair.mp hAvoids with ⟨hAnd, hOr⟩
  refine ⟨balanced_append hCall.balanced_text hPart.balanced, ?_, ?_⟩
  · exact hFree Condition.isLetters_or hOr hGap.free_or
  · exact hFree Condition.isLetters_and hAnd hGap.free_and

end IsCall

end Text

------------------------------------------------------------
-- Calls in Lists
------------------------------------------------------------

namespace Item

variable {env : Environment}
variable {x name gap argument : Text}

/- The words of a call: one, or the name and the group. -/
theorem topWords_call
    (hCall : Text.IsCall x name gap argument) :
    Text.topWords x =
      .ok
        (if gap = [] then ⟨[([], x)], []⟩
         else
          ⟨[([], name), (gap, '(' :: (argument ++ [')']))], []⟩) := by
  have hNamePasses := Text.passes_isBlank hCall.isLeft_name
  have hGroupPasses := Text.passes_isBlank hCall.isLeft_group
  split_ifs with hGap
  · apply Text.topWords_word hCall.ne_nil hCall.balanced_text
    intro m hMem hTop
    have hText : x = name ++ '(' :: (argument ++ [')']) := by
      rw [hCall.text, hGap, List.nil_append]
    rw [hText] at hMem
    change m ∈ Text.marking _ at hMem
    rw [Text.marking_append _ hCall.balanced_name] at hMem
    rcases List.mem_append.mp hMem with h | h
    · exact hNamePasses m h hTop
    · exact hGroupPasses m h hTop
  · rw [hCall.text]
    exact
      Text.topWords_pair hCall.nonempty hCall.balanced_name hNamePasses hGap
        hCall.blank (by simp) (Text.balanced_group hCall.balanced)
        hGroupPasses

/- A group is no direction. -/
theorem ofWord?_group :
    Direction.ofWord? ('(' :: (argument ++ [')'])) = none := by
  cases hFound : Direction.ofWord? ('(' :: (argument ++ [')'])) with
  | none => rfl
  | some direction =>
      have hLetters := Direction.isLetters_of_ofWord? hFound
      have hAlpha := Text.isAlpha_of_mem hLetters List.mem_cons_self
      exact absurd hAlpha (by decide)

/- A group is no alias. -/
theorem not_isAliasAfter_group
    (before : Text) :
    ¬ IsAliasAfter before ('(' :: (argument ++ [')'])) := by
  have hOpen : isNameStart '(' = false := by decide +kernel
  rintro ⟨hQuoted | hQuoted | hPlain, -, -⟩
  · exact absurd hQuoted.2.1 (by simp)
  · exact absurd hQuoted.2.1 (by simp)
  · have hStart := hPlain.1
    simp [hOpen] at hStart

theorem cutDirection_call
    (hCall : Text.IsCall x name gap argument) :
    cutDirection x = .ok (x, .ascending) := by
  rw [cutDirection, topWords_call hCall]
  split_ifs
  · rfl
  · simp [Except.map, Words.words, ofWord?_group]

theorem cutAlias_call
    (hCall : Text.IsCall x name gap argument) :
    cutAlias x = .ok (x, none) := by
  rw [cutAlias, topWords_call hCall]
  split_ifs
  · rfl
  · simp [Except.map, Words.words, cutLastAlias, not_isAliasAfter_group]

/- A call ends in no star. -/
theorem star?_call
    (hCall : Text.IsCall x name gap argument) :
    star? x = .ok none :=
  star?_of_last (by rw [hCall.getLast?_eq]; decide)

/- A call is an item by itself, with blanks in it or without. -/
theorem readItem_call
    (ordered : Bool)
    (hCall : Text.IsCall x name gap argument) :
    readItem env ordered x =
      (readAliased env x none).map fun items =>
        if ordered then
          items.map fun item =>
            { item with direction := some .ascending }
        else items :=
  readItem_of_cuts ordered hCall.ne_nil hCall.trim_eq
    (cutDirection_call hCall) (cutAlias_call hCall)

end Item

------------------------------------------------------------
-- Calls with Blanks as Operands
------------------------------------------------------------

namespace Predicate

variable {env : Environment}
variable {x name gap argument : Text}
variable {p : Predicate}

/- No comparison begins with a parenthesis. -/
theorem readComparison_open_ne_ok
    {predicate left t : Text}
    {s : Cursor}
    (hRest : s.rest = '(' :: t) :
    readComparison env predicate left s ≠ .ok p := by
  have hSymbol : Cursor.isSymbol '(' = false := by decide
  have hName : isNameChar '(' = false := by decide +kernel
  have hNoSymbol : s.symbol? = (none, s) := by
    rw [Cursor.symbol?_of_append (s := s) (t := '(' :: t) [] hRest
      (by simp) (by simp [hSymbol])]
    simp [← hRest]
  have hNoWord : s.word = ([], s) := by
    rw [Cursor.word_of_append (s := s) (t := '(' :: t) [] hRest
      (by simp) (by simp [hName])]
    simp [← hRest]
  intro hRead
  rw [readComparison, hNoSymbol] at hRead
  simp only [readWordComparison, hNoWord] at hRead
  rw [if_neg (by decide), if_neg (by decide)] at hRead
  simp only [if_true] at hRead
  split at hRead
  · cases hRead
  · cases hRead

/-
  A call with blanks in front of its group is cut behind the
  name, and no comparison follows.
-/
theorem ofText_call_ne_ok
    {rest : Text}
    (hCall : Text.IsCall x name gap argument)
    (hGap : gap ≠ [])
    (hAvoids : Name.Avoids Text.guardWords name) :
    ofText env (x ++ rest) ≠ .ok p := by
  have hText :
      x ++ rest = name ++ (gap ++ ('(' :: (argument ++ ')' :: rest))) := by
    rw [hCall.text]
    simp
  have hHalts :
      Stop.Halts Cursor.endsOperand
        (gap ++ ('(' :: (argument ++ ')' :: rest))) := by
    apply Stop.halts_of_blank
    have hBlank := hCall.blank
    cases gap with
    | nil => exact absurd rfl hGap
    | cons c gap => simpa using (Text.isBlank_cons.mp hBlank).1
  have hWord : (x ++ rest).takeWhile isNameChar = name :=
    hCall.leadingWord_append rest
  rw [hText] at hWord ⊢
  rw [hCall.isLeft_name.ofText_append hHalts
    (by rw [hWord]; exact hAvoids _ (by decide))]
  intro hRead
  rcases bind_eq_ok_iff.mp hRead with ⟨left, -, hComparison⟩
  refine readComparison_open_ne_ok (t := argument ++ ')' :: rest) ?_
    hComparison
  change Text.trimStart (gap ++ _) = _
  rw [Text.trimStart_append _ hCall.blank, Text.trimStart_of_head]
  rfl

end Predicate

end SqlSelect
