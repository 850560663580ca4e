import SqlSelect.Proofs.Condition.Comparisons
import SqlSelect.Proofs.Origin.Names

/-
  The grammar of predicates. A text is read as a predicate if
  and only if it is a parameter in parentheses, a sign and a
  value, or an operand and a comparison with it. The name and
  the value of a parameter are any texts that are not blank
  without the quotes around them.

  Main statements:
    * `Predicate.BeginsParameter`
    * `Predicate.IsReadFrom`
    * `Predicate.parameterStart?_eq_some_iff`
    * `Predicate.readParameter_eq_ok_iff`
    * `Predicate.ofText_eq_ok_iff`
    * `Condition.isReadFrom_of_ofText`
-/

namespace SqlSelect

namespace Predicate

------------------------------------------------------------
-- The Forms of Predicates
------------------------------------------------------------

/- The text begins with the word for a parameter and a parenthesis. -/
def BeginsParameter
    (t : Text) : Prop :=
  ∃ word gap rest,
    t = word ++ (gap ++ '(' :: rest) ∧
      Text.SameWord word "PARAMETER".toList ∧ Text.IsBlank gap

/-
  The text is a parameter in parentheses, a sign and a value,
  or an operand and a comparison with it.
-/
inductive IsReadFrom
    (env : Environment)
    (t : Text) : List Text → Predicate → Prop where
  | parameter
      (word gap interior space right name value : Text)
      (hText :
        t =
          word ++
            (gap ++ '(' :: (interior ++ ')' :: (space ++ '=' :: right))))
      (hWord : Text.SameWord word "PARAMETER".toList)
      (hGap : Text.IsBlank gap)
      (hInterior : Text.Balanced interior)
      (hSpace : Text.IsBlank space)
      (hSign : right.head?.any Cursor.isSymbol = false)
      (hName : Name.unquote (Quoted.strip (Text.trim interior)) = name)
      (hValue : Quoted.strip (Text.trim right) = value)
      (hNamed : ¬ Text.IsBlank name)
      (hValued : ¬ Text.IsBlank value) :
      IsReadFrom env t [interior, right]
        ⟨name, .parameter, some value, none, none⟩
  | compared
      (lead operand gap rest left : Text)
      (parts : List Text)
      (p : Predicate)
      (hText : t = lead ++ (operand ++ (gap ++ rest)))
      (hOther : ¬ BeginsParameter t)
      (hLead : Text.IsBlank lead)
      (hOperand : IsLeft operand)
      (hGap : Text.IsBlank gap)
      (hEnds : Stop.Halts Cursor.endsOperand (gap ++ rest))
      (hRest : rest.head?.any isBlank = false)
      (hField : env.fieldName operand = .ok left)
      (hCompared : IsComparedIn env left rest parts p) :
      IsReadFrom env t parts p

variable {env : Environment}
variable {predicate t : Text}
variable {s after : Cursor}
variable {p : Predicate}

------------------------------------------------------------
-- Parameters
------------------------------------------------------------

/- The cursor in front of the parenthesis of a parameter. -/
theorem parameterStart?_eq_some_iff :
    parameterStart? t = some s ↔
      ∃ word gap rest,
        t = word ++ (gap ++ '(' :: rest) ∧
          Text.SameWord word "PARAMETER".toList ∧ Text.IsBlank gap ∧
          s = ⟨t, '(' :: rest, 0⟩ := by
  have hPlain : isBlank '(' = false := by decide
  constructor
  · intro hStart
    rcases hWord : (Cursor.ofText t).word with ⟨word, start⟩
    rw [parameterStart?, hWord] at hStart
    rcases Cursor.word_eq_iff.mp hWord with ⟨rest, hRest, -, -, rfl⟩
    rcases hAt : Cursor.atChar '(' { Cursor.ofText t with rest := rest }
      with ⟨opens, after⟩
    dsimp only at hStart
    rw [hAt] at hStart
    dsimp only at hStart
    split_ifs at hStart with hBoth
    rcases hBoth with ⟨hSame, rfl⟩
    rcases (Cursor.atChar_eq_true_iff hPlain).mp hAt with
      ⟨gap, interior, hText, hGap, rfl⟩
    cases hStart
    refine ⟨word, gap, interior, ?_, hSame, hGap, rfl⟩
    rw [← show rest = gap ++ '(' :: interior from hText]
    exact hRest
  · rintro ⟨word, gap, rest, rfl, hSame, hGap, rfl⟩
    have hLetters : Text.IsLetters word :=
      Text.isLetters_of_sameWord hSame (by decide)
    have hWord :=
      (Cursor.word_eq_iff
          (s := Cursor.ofText (word ++ (gap ++ '(' :: rest)))).mpr
        ⟨gap ++ '(' :: rest, rfl,
          Text.isNameChar_of_isLetters hLetters,
          Text.head?_of_endsAfter (Text.endsAfter_open rest hGap), rfl⟩
    rw [parameterStart?, hWord]
    dsimp only
    rw [(Cursor.atChar_eq_true_iff hPlain).mpr ⟨gap, rest, rfl, hGap, rfl⟩]
    exact if_pos ⟨hSame, rfl⟩

theorem parameterStart?_eq_none_iff :
    parameterStart? t = none ↔ ¬ BeginsParameter t := by
  constructor
  · rintro hNone ⟨word, gap, rest, hText, hSame, hGap⟩
    have hStart :=
      parameterStart?_eq_some_iff.mpr
        ⟨word, gap, rest, hText, hSame, hGap, rfl⟩
    rw [hNone] at hStart
    cases hStart
  · intro hOther
    cases hStart : parameterStart? t with
    | none => rfl
    | some s =>
        rcases parameterStart?_eq_some_iff.mp hStart with
          ⟨word, gap, rest, hText, hSame, hGap, -⟩
        exact absurd ⟨word, gap, rest, hText, hSame, hGap⟩ hOther

/- The sign of a parameter is no part of a longer one. -/
theorem skipParameterSign_eq_ok_iff :
    skipParameterSign predicate s = .ok after ↔
      ∃ space right,
        s.rest = space ++ '=' :: right ∧ Text.IsBlank space ∧
          right.head?.any Cursor.isSymbol = false ∧
          after = { s with rest := right } := by
  constructor
  · intro hSign
    rw [skipParameterSign] at hSign
    split at hSign
    · cases hSign
    · rename_i symbol start hSymbol
      split_ifs at hSign with hEq
      cases hSign
      rcases Cursor.symbol?_eq_iff.mp hSymbol with
        ⟨run, right, hRest, -, hNext, hFound, rfl⟩
      have hRun : run = ['='] := by
        split_ifs at hFound
        rw [← Option.some.inj hFound, hEq]
      rcases Cursor.exists_blanks_skipBlanks s with
        ⟨space, hSpace, hText⟩
      rw [hRest, hRun] at hText
      exact ⟨space, right, hText, hSpace, hNext, rfl⟩
  · rintro ⟨space, right, hText, hSpace, hNext, rfl⟩
    have hSkip : s.skipBlanks = { s with rest := '=' :: right } :=
      Cursor.skipBlanks_of_append hText hSpace (by simp; decide)
    have hSymbol :
        Cursor.symbol? { s with rest := '=' :: right } =
          (some ['='], { s with rest := right }) :=
      Cursor.symbol?_of_append ['='] rfl
        (List.forall_mem_singleton.mpr (by decide)) hNext
    rw [skipParameterSign, hSkip, hSymbol]
    rfl

/-
  A parameter is read from a group, a sign and a value, of
  which the name and the value must not be blank without
  their quotes.
-/
theorem readParameter_eq_ok_iff
    {rest : Text}
    (hRest : s.rest = '(' :: rest) :
    readParameter predicate s = .ok p ↔
      ∃ interior space right name value,
        rest = interior ++ ')' :: (space ++ '=' :: right) ∧
          Text.Balanced interior ∧ Text.IsBlank space ∧
          right.head?.any Cursor.isSymbol = false ∧
          Name.unquote (Quoted.strip (Text.trim interior)) = name ∧
          Quoted.strip (Text.trim right) = value ∧
          ¬ Text.IsBlank name ∧ ¬ Text.IsBlank value ∧
          p = ⟨name, .parameter, some value, none, none⟩ := by
  have hOpens : s.next? = some '(' := congrArg List.head? hRest
  constructor
  · intro hRead
    rcases bind_eq_ok_iff.mp hRead with
      ⟨⟨interior, after⟩, hGroup, hRead⟩
    rcases bind_eq_ok_iff.mp hRead with ⟨name, hName, hRead⟩
    rcases bind_eq_ok_iff.mp hRead with ⟨start, hSign, hRead⟩
    rcases bind_eq_ok_iff.mp hRead with ⟨value, hValue, hEq⟩
    rcases (Cursor.group_eq_ok_iff hOpens).mp hGroup with
      ⟨t, hText, hBalanced, rfl⟩
    rcases skipParameterSign_eq_ok_iff.mp hSign with
      ⟨space, right, hBehind, hSpace, hNext, rfl⟩
    simp only [parameterName] at hName
    simp only [parameterValue] at hValue
    split_ifs at hName with hNamed
    split_ifs at hValue with hValued
    rw [hRest, show t = space ++ '=' :: right from hBehind] at hText
    cases hEq
    exact
      ⟨interior, space, right, name, value, (List.cons.inj hText).2,
        hBalanced, hSpace, hNext, Except.ok.inj hName,
        Except.ok.inj hValue, Except.ok.inj hName ▸ hNamed,
        Except.ok.inj hValue ▸ hValued, rfl⟩
  · rintro ⟨interior, space, right, _, _, rfl, hBalanced, hSpace, hNext,
      rfl, rfl, hNamed, hValued, rfl⟩
    have hGroup :=
      (Cursor.group_eq_ok_iff hOpens).mpr ⟨_, hRest, hBalanced, rfl⟩
    have hName :
        parameterName interior =
          .ok (Name.unquote (Quoted.strip (Text.trim interior))) :=
      if_neg hNamed
    have hSign :
        skipParameterSign predicate
            { s with rest := space ++ '=' :: right } =
          .ok { s with rest := right } :=
      skipParameterSign_eq_ok_iff.mpr
        ⟨space, right, rfl, hSpace, hNext, rfl⟩
    have hValue :
        parameterValue right = .ok (Quoted.strip (Text.trim right)) :=
      if_neg hValued
    exact
      bind_eq_ok_iff.mpr
        ⟨_, hGroup,
          bind_eq_ok_iff.mpr
            ⟨_, hName,
              bind_eq_ok_iff.mpr
                ⟨_, hSign, bind_eq_ok_iff.mpr ⟨_, hValue, rfl⟩⟩⟩⟩

------------------------------------------------------------
-- Predicates
------------------------------------------------------------

theorem exists_isReadFrom_of_ofText
    (hRead : ofText env t = .ok p) :
    ∃ parts, IsReadFrom env t parts p := by
  rw [ofText] at hRead
  split_ifs at hRead with hNil
  split at hRead
  · rename_i s hStart
    rcases parameterStart?_eq_some_iff.mp hStart with
      ⟨word, gap, rest, hText, hWord, hGap, rfl⟩
    rcases (readParameter_eq_ok_iff rfl).mp hRead with
      ⟨interior, space, right, name, value, rfl, hBalanced, hSpace, hSign,
        hName, hValue, hNamed, hValued, rfl⟩
    exact
      ⟨[interior, right],
        .parameter word gap interior space right name value hText hWord
          hGap hBalanced hSpace hSign hName hValue hNamed hValued⟩
  · rename_i hNone
    rcases hOperand : (Cursor.ofText t).operand with ⟨outcome, start⟩
    rw [hOperand] at hRead
    rcases bind_eq_ok_iff.mp hRead with ⟨operand, rfl, hRest⟩
    split_ifs at hRest with hSome
    rcases bind_eq_ok_iff.mp hRest with ⟨left, hField, hComparison⟩
    rcases Cursor.operand_eq_ok_iff.mp hOperand with
      ⟨behind, hText, hBalanced, hPasses, hEnds, rfl⟩
    have hBehind := Text.takeWhile_append_trimStart behind
    rcases readComparison_eq_ok_iff.mp hComparison with
      ⟨parts, hCompared⟩
    refine
      ⟨parts,
        .compared (t.takeWhile isBlank) operand
          (behind.takeWhile isBlank) (Text.trimStart behind) left parts p ?_
          (parameterStart?_eq_none_iff.mp hNone)
          (Text.isBlank_takeWhile t) ⟨hSome, hBalanced, hPasses⟩
          (Text.isBlank_takeWhile behind) ?_
          (Cursor.head?_any_dropWhile isBlank behind) hField hCompared⟩
    · rw [hBehind, ← show Text.trimStart t = operand ++ behind from hText]
      exact (Text.takeWhile_append_trimStart t).symm
    · rw [hBehind]
      exact hEnds

theorem IsReadFrom.ofText_eq
    {parts : List Text}
    (hRead : IsReadFrom env t parts p) :
    ofText env t = .ok p := by
  cases hRead with
  | parameter word gap interior space right name value hText hWord hGap
      hInterior hSpace hSign hName hValue hNamed hValued =>
      have hStart :=
        parameterStart?_eq_some_iff.mpr
          ⟨word, gap, _, hText, hWord, hGap, rfl⟩
      have hSome : t ≠ [] := by
        rintro rfl
        cases hStart
      rw [ofText, if_neg hSome, hStart]
      exact
        (readParameter_eq_ok_iff rfl).mpr
          ⟨interior, space, right, name, value, rfl, hInterior, hSpace,
            hSign, hName, hValue, hNamed, hValued, rfl⟩
  | compared lead operand gap rest left parts p hText hOther hLead hOperand
      hGap hEnds hRest hField hCompared =>
      have hSome : t ≠ [] := by
        rw [hText]
        exact
          List.append_ne_nil_of_right_ne_nil _
            (List.append_ne_nil_of_left_ne_nil hOperand.some _)
      have hRead :
          (Cursor.ofText t).operand =
            (.ok operand, { Cursor.ofText t with rest := gap ++ rest }) := by
        refine
          Cursor.operand_eq_ok_iff.mpr
            ⟨gap ++ rest, ?_, hOperand.balanced, hOperand.passes, hEnds,
              rfl⟩
        change Text.trimStart t = _
        rw [hText, Text.trimStart_append _ hLead,
          hOperand.trimStart_append]
      have hSkip :
          Cursor.skipBlanks
              { Cursor.ofText t with rest := gap ++ rest } =
            ⟨t, rest, 0⟩ :=
        Cursor.skipBlanks_of_append rfl hGap hRest
      rw [ofText, if_neg hSome, parameterStart?_eq_none_iff.mpr hOther]
      simp only [hRead]
      change (if operand = [] then _ else _) = _
      rw [if_neg hOperand.some, hField]
      change readComparison env t left _ = _
      rw [hSkip]
      exact readComparison_eq_ok_iff.mpr ⟨parts, hCompared⟩

/- A text is read as a predicate exactly if it has a form. -/
theorem ofText_eq_ok_iff :
    ofText env t = .ok p ↔ ∃ parts, IsReadFrom env t parts p :=
  ⟨exists_isReadFrom_of_ofText, fun ⟨_, hRead⟩ => hRead.ofText_eq⟩

end Predicate

------------------------------------------------------------
-- Conditions
------------------------------------------------------------

namespace Condition

/-
  A text is accepted as a predicate exactly if it has one of
  the forms, with nothing but blanks behind it, and it is an
  error otherwise. What is on the right of an operator is one
  literal or one word, and what is a part of a list or of a
  parameter is any text. Every predicate of a condition is
  accepted so from a text of its own in it.
-/
theorem isReadFrom_of_ofText
    (env : Environment) :
    (∀ t p,
        Predicate.ofText env t = .ok p ↔
          ∃ parts, Predicate.IsReadFrom env t parts p) ∧
      (∀ left comparison right p,
        Predicate.IsRight env left comparison right p →
          Text.IsSingle right) ∧
      ∀ t c, ofText env t = .ok c →
        ∀ p ∈ c.predicates,
          ∃ own parts,
            own <:+: t ∧ Predicate.IsReadFrom env own parts p := by
  refine
    ⟨fun t p => Predicate.ofText_eq_ok_iff,
      fun left comparison right p hRight => hRight.isSingle, ?_⟩
  intro t c hRead p hMem
  rw [ofText] at hRead
  split_ifs at hRead
  · cases hRead
    exact absurd hMem List.not_mem_nil
  · rcases exists_ofText_of_readNested hRead p hMem with
      ⟨own, hInfix, hPredicate⟩
    rcases Predicate.ofText_eq_ok_iff.mp hPredicate with
      ⟨parts, hParts⟩
    exact ⟨own, parts, hInfix, hParts⟩

/- A list and an operator in one condition. -/
theorem isReadFrom_of_ofText_list :
    let isIn : Predicate :=
      ⟨"A".toList, .inList, some "x;".toList, none, none⟩
    ∃ own parts,
      own <:+: "NOT A IN ('x', ) AND (A LIKE 'b' OR A IS NULL)".toList ∧
        Predicate.IsReadFrom (oneField "A".toList) own parts isIn := by
  intro isIn
  let isLike : Predicate :=
    ⟨"A".toList, .like, some "b".toList, none, some (.string "b".toList)⟩
  have hRead :
      ofText (oneField "A".toList)
          "NOT A IN ('x', ) AND (A LIKE 'b' OR A IS NULL)".toList =
        .ok
          (.group false .first
            [.atom true .first isIn,
              .group false .and
                [.group false .first
                  [.atom false .first isLike,
                    .atom false .or (.bare "A".toList .isNull)]]]) := by
    decide +kernel
  exact
    (isReadFrom_of_ofText (oneField "A".toList)).2.2 _ _ hRead isIn
      (by simp [predicates, predicatesOf])

/-
  Not every part is one literal or one word: the value of a
  parameter takes in the text behind it, which the right side
  of an operator does not.
-/
theorem not_forall_isSingle :
    (¬ ∀ (env : Environment) (t : Text) (parts : List Text)
          (p : Predicate),
        Predicate.ofText env t = .ok p →
          Predicate.IsReadFrom env t parts p →
            ∀ part ∈ parts, Text.IsSingle part) ∧
      ofText (oneField "A".toList) "A = 'x' junk".toList =
        .error
          (.malformed (.textAfterOperand .eq "A = 'x' junk".toList)) := by
  constructor
  · intro hAll
    let isBound : Predicate :=
      ⟨"p".toList, .parameter, some "'x' junk".toList, none, none⟩
    have hForm :
        Predicate.IsReadFrom (oneField "A".toList)
          "PARAMETER('p') = 'x' junk".toList
          ["'p'".toList, " 'x' junk".toList] isBound :=
      .parameter "PARAMETER".toList [] "'p'".toList " ".toList
        " 'x' junk".toList _ _ (by decide) (by decide) (by decide)
        (by decide) (by decide) (by decide) (by decide +kernel)
        (by decide +kernel) (by decide) (by decide)
    have hSingle :=
      hAll _ _ _ _ hForm.ofText_eq hForm " 'x' junk".toList (by simp)
    have hWords :
        Text.topWords (Text.trim " 'x' junk".toList) =
          .ok ⟨[([], "'x'".toList), (" ".toList, "junk".toList)], []⟩ := by
      decide +kernel
    rcases hSingle with hLiteral | ⟨words, hOne, hLength⟩
    · revert hLiteral
      decide +kernel
    · rw [hWords] at hOne
      cases hOne
      cases hLength
  · decide +kernel

end Condition

end SqlSelect
