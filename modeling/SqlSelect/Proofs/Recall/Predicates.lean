import SqlSelect.Proofs.Recall.Texts

/-
  Predicates in writing. What is read back from the text of a
  predicate is the predicate, exactly if its names are
  recalled and spell no keyword where one could stand, and
  its value is recalled.

  Main statements:
    * `Predicate.bare_name_of_avoids`
    * `Predicate.ofText_name_append`
    * `Predicate.readComparison_spelling`
    * `Predicate.Recalled`
    * `Predicate.ofText_written`
    * `Predicate.recalled_of_ofText_written`
-/

namespace SqlSelect

------------------------------------------------------------
-- Cursors
------------------------------------------------------------

namespace Cursor

variable {s : Cursor}
variable {t : Text}

theorem symbol?_of_append
    (front : Text)
    (hRest : s.rest = front ++ t)
    (hSymbol : ∀ c ∈ front, isSymbol c = true)
    (hNext : t.head?.any isSymbol = false) :
    s.symbol? =
      (if front.isEmpty then none else some front,
        { s with rest := t }) := by
  have hAfter : s.skipWhile isSymbol = { s with rest := t } := by
    rw [skipWhile, hRest, dropWhile_append_of_head hSymbol hNext]
  have hSince : since s { s with rest := t } = front :=
    since_of_append hRest
  simp only [symbol?, hAfter, hSince]

theorem word_of_append
    (front : Text)
    (hRest : s.rest = front ++ t)
    (hNames : ∀ c ∈ front, isNameChar c = true)
    (hNext : t.head?.any isNameChar = false) :
    s.word = (front, { s with rest := t }) := by
  have hAfter : s.skipWhile isNameChar = { s with rest := t } := by
    rw [skipWhile, hRest, dropWhile_append_of_head hNames hNext]
  have hSince : since s { s with rest := t } = front :=
    since_of_append hRest
  simp only [word, hAfter, hSince]

end Cursor

------------------------------------------------------------
-- Leading NOTs
------------------------------------------------------------

namespace Predicate

variable {left t : Text}

/- A name that is not NOT is no leading NOT. -/
theorem bare_name_of_avoids
    (hEnding : IsEnding t)
    (hAvoids : ¬ Text.SameWord left "NOT".toList) :
    Condition.bare (Name.written left ++ ' ' :: t) =
      (false, Name.written left ++ ' ' :: t) := by
  have hWords : ∀ w ∈ ["NOT".toList], Text.IsLetters w := by
    simpa using Condition.isLetters_not
  apply bare_of_delimitedLength? (isTrimmed_name_append hEnding)
  rw [delimitedLength?_append hWords (Name.written_ne_nil left)
    (Text.seam_of_blank _ _ (by decide)) (by simp)]
  rcases Name.written_cases left with ⟨hPlain, hText⟩ | ⟨-, hText⟩
  · rw [hText]
    apply Text.delimitedLength?_eq_none_of_word hWords
    · exact fun c hMem => Name.isNameChar_of_mem hPlain hMem
    · rintro ⟨spelled, following, rfl, hSame, rfl⟩
      rw [List.append_nil] at hAvoids
      exact hAvoids hSame
  · rw [hText]
    exact delimitedLength?_eq_none_of_head hWords rfl

/- A name that spells NOT is read as a leading NOT. -/
theorem bare_name_of_not
    (hEnding : IsEnding t)
    (hSame : Text.SameWord left "NOT".toList) :
    (Condition.bare (Name.written left ++ ' ' :: t)).1 = true := by
  have hName :=
    Name.written_of_sameWord Condition.isLetters_not hSame
  have hText : ¬ Text.IsBlank t := by
    intro hBlank
    have hTrim := Text.trim_eq_of_isTrimmed hEnding.trimmed
    rw [Text.trim_eq_nil_iff.mpr hBlank] at hTrim
    exact hEnding.some hTrim.symm
  have hBare :=
    Condition.bare_not (b := [' ']) hSame (by simp) (by decide) hText
  rw [bare_of_initial hEnding.trimmed
    (initial_of_starts hEnding.starts)] at hBare
  rw [hName]
  exact congrArg Prod.fst hBare

------------------------------------------------------------
-- The Name and What Follows It
------------------------------------------------------------

variable {env : Environment}

theorem head?_of_starts
    (hStarts : Comparison.Starts t) :
    ∃ c rest, t = c :: rest ∧ c ∈ "=<>LRI".toList := by
  cases t with
  | nil => exact absurd hStarts (by decide)
  | cons c rest =>
      exact ⟨c, rest, rfl, by simpa [Comparison.Starts] using hStarts⟩

/- In front of a comparison there are no parentheses. -/
theorem atChar_of_starts
    (s : Cursor)
    (hRest : s.rest = ' ' :: t)
    (hStarts : Comparison.Starts t) :
    (s.atChar '(').1 = false ∧ s.skipBlanks = { s with rest := t } := by
  rcases head?_of_starts hStarts with ⟨c, rest, rfl, hMem⟩
  have hAll :
      "=<>LRI".toList.all (fun d => !isBlank d && d != '(') =
        true := by
    decide
  have hBoth := List.all_eq_true.mp hAll c hMem
  rw [Bool.and_eq_true, Bool.not_eq_true', bne_iff_ne] at hBoth
  rcases hBoth with ⟨hBlank, hParen⟩
  have hSkip : s.skipBlanks = { s with rest := c :: rest } := by
    have hSpace : isBlank ' ' = true := by decide
    rw [Cursor.skipBlanks, Cursor.skipWhile, hRest,
      List.dropWhile_cons, hSpace, if_pos rfl, List.dropWhile_cons,
      hBlank]
    rfl
  refine ⟨?_, hSkip⟩
  simp only [Cursor.atChar, hSkip, Cursor.next?, List.head?_cons]
  simpa using hParen

/- A name and a comparison do not begin like a parameter. -/
theorem parameterStart?_name_append
    (hStarts : Comparison.Starts t) :
    parameterStart? (Name.written left ++ ' ' :: t) = none := by
  have hSpace : isNameChar ' ' = false := by decide +kernel
  have hQuote : isNameChar '"' = false := by decide +kernel
  rw [parameterStart?]
  rcases Name.written_cases left with ⟨hPlain, hText⟩ | ⟨-, hText⟩
  · have hWord :
        (Cursor.ofText (Name.written left ++ ' ' :: t)).word =
          (left, ⟨Name.written left ++ ' ' :: t, ' ' :: t, 0⟩) := by
      apply Cursor.word_of_append left
      · exact congrArg (fun front => front ++ ' ' :: t) hText
      · exact fun c hMem => Name.isNameChar_of_mem hPlain hMem
      · simpa using hSpace
    have hNone :=
      (atChar_of_starts
        ⟨Name.written left ++ ' ' :: t, ' ' :: t, 0⟩ rfl
        hStarts).1
    rw [hWord]
    refine if_neg ?_
    rintro ⟨-, hOpens⟩
    exact absurd (hNone.symm.trans hOpens) (by decide)
  · have hWord :
        (Cursor.ofText (Name.written left ++ ' ' :: t)).word =
          ([], Cursor.ofText (Name.written left ++ ' ' :: t)) := by
      apply Cursor.word_of_append []
      · rfl
      · exact fun c hMem => absurd hMem List.not_mem_nil
      · rw [hText]
        simpa [Name.quoted] using hQuote
    rw [hWord]
    exact if_neg fun hBoth => absurd hBoth.1 (by decide)

theorem operand_name_append
    (hEnding : IsEnding t) :
    (Cursor.ofText (Name.written left ++ ' ' :: t)).operand =
      (.ok (Name.written left),
        ⟨Name.written left ++ ' ' :: t, ' ' :: t, 0⟩) := by
  have hTrimmed : Text.IsTrimmed (Name.written left ++ ' ' :: t) :=
    isTrimmed_name_append hEnding
  have hBlanks :=
    Condition.trimStart_trim (Name.written left ++ ' ' :: t)
  rw [Text.trim_eq_of_isTrimmed hTrimmed] at hBlanks
  have hPasses :
      Nesting.outside.Passes
        (fun c => isBlank c || Cursor.isSymbol c)
        (Name.written left) := by
    apply Name.passes_written
    intro c hName
    rw [isBlank_eq_false_of_isNameChar hName,
      isSymbol_eq_false_of_isNameChar hName]
    rfl
  have hHalts :
      Stop.Halts (fun c => isBlank c || Cursor.isSymbol c)
        (' ' :: t) :=
    Or.inr ⟨' ', t, rfl, by decide, by decide⟩
  exact
    Cursor.operand_eq hBlanks (Name.balanced_written left) hPasses
      hHalts

/-
  What is read of a name and what follows it: the name is
  looked up, and the rest is read as a comparison.
-/
theorem ofText_name_append
    (hEnding : IsEnding t) :
    ofText env (Name.written left ++ ' ' :: t) =
      env.fieldName (Name.written left) >>= fun field =>
        readComparison env (Name.written left ++ ' ' :: t) field
          ⟨Name.written left ++ ' ' :: t, t, 0⟩ := by
  have hSome : Name.written left ++ ' ' :: t ≠ [] :=
    List.append_ne_nil_of_left_ne_nil (Name.written_ne_nil left) _
  have hSkip :=
    (atChar_of_starts
      ⟨Name.written left ++ ' ' :: t, ' ' :: t, 0⟩ rfl
      hEnding.starts).2
  rw [ofText, if_neg hSome, parameterStart?_name_append hEnding.starts]
  simp only [operand_name_append hEnding, hSkip]
  exact if_neg (Name.written_ne_nil left)

------------------------------------------------------------
-- Comparisons
------------------------------------------------------------

variable {whole : Text}
variable {comparison : Comparison}

theorem readComparison_symbol
    {symbol : Text}
    (hFound : Comparison.ofSymbol? symbol = some comparison)
    (hSymbol : symbol.all Cursor.isSymbol = true)
    (hSome : symbol ≠ [])
    (hNext : t.head?.any Cursor.isSymbol = false) :
    readComparison env whole left ⟨whole, symbol ++ t, 0⟩ =
      readRight env whole left comparison t := by
  have hRead :=
    Cursor.symbol?_of_append
      (s := ⟨whole, symbol ++ t, 0⟩) (t := t) symbol rfl
      (fun c hMem => List.all_eq_true.mp hSymbol c hMem) hNext
  have hNotEmpty : symbol.isEmpty = false := by
    simpa using hSome
  rw [hNotEmpty] at hRead
  rw [readComparison, hRead]
  simp only [Bool.false_eq_true, if_false, hFound]

/- A comparison that begins with a letter is read as a word. -/
theorem readComparison_word
    {word : Text}
    (hWord : Text.IsLetters word)
    (hNext : t.head?.any isNameChar = false) :
    readComparison env whole left ⟨whole, word ++ t, 0⟩ =
      if Text.SameWord word "IS".toList then
        readNullTest whole left ⟨whole, t, 0⟩
      else if Text.SameWord word "IN".toList then
        readList whole left ⟨whole, t, 0⟩
      else
        match Comparison.ofWord? word with
        | none => .error (.unknownOperator word)
        | some comparison =>
            readRight env whole left comparison t := by
  have hNames :
      ∀ c ∈ word, isNameChar c = true :=
    Text.isNameChar_of_isLetters hWord
  have hHead :
      (word ++ t).head?.any Cursor.isSymbol = false := by
    cases word with
    | nil => exact absurd rfl hWord.1
    | cons c word =>
        simpa using
          isSymbol_eq_false_of_isNameChar
            (hNames c List.mem_cons_self)
  have hSymbol :
      Cursor.symbol? ⟨whole, word ++ t, 0⟩ =
        (none, ⟨whole, word ++ t, 0⟩) :=
    Cursor.symbol?_of_append [] rfl
      (fun c hMem => absurd hMem List.not_mem_nil) hHead
  have hRead :
      Cursor.word ⟨whole, word ++ t, 0⟩ = (word, ⟨whole, t, 0⟩) :=
    Cursor.word_of_append word rfl hNames hNext
  rw [readComparison, hSymbol]
  simp only [readWordComparison, hRead]
  exact
    if_congr Iff.rfl rfl (if_congr Iff.rfl rfl (if_neg hWord.1))

/- A space ends a word. -/
theorem head?_any_space
    (t : Text) :
    (' ' :: t).head?.any isNameChar = false := by
  have hSpace : isNameChar ' ' = false := by decide +kernel
  simpa using hSpace

theorem readComparison_spelling
    (hBinary : comparison.isBinary = true) :
    readComparison env whole left
        ⟨whole, comparison.spelling ++ ' ' :: t, 0⟩ =
      readRight env whole left comparison (' ' :: t) := by
  have hRead
      (word : Text)
      (hWord : Text.IsLetters word)
      (hIs : ¬ Text.SameWord word "IS".toList)
      (hIn : ¬ Text.SameWord word "IN".toList)
      (hFound : Comparison.ofWord? word = some comparison) :
      readComparison env whole left ⟨whole, word ++ ' ' :: t, 0⟩ =
        readRight env whole left comparison (' ' :: t) := by
    rw [readComparison_word hWord (head?_any_space t), if_neg hIs,
      if_neg hIn, hFound]
  cases comparison with
  | like =>
      exact
        hRead "LIKE".toList (by decide) (by decide) (by decide) rfl
  | regexp =>
      exact
        hRead "REGEXP".toList (by decide) (by decide) (by decide) rfl
  | inList => cases hBinary
  | isNull => cases hBinary
  | isNotNull => cases hBinary
  | parameter => cases hBinary
  | _ => exact readComparison_symbol rfl (by decide) (by decide) rfl

/- The tests for a missing value have no right side. -/
theorem readComparison_test
    (hTest : comparison = .isNull ∨ comparison = .isNotNull) :
    readComparison env whole left ⟨whole, comparison.spelling, 0⟩ =
      .ok (bare left comparison) := by
  have hIs (t : Text) :
      readComparison env whole left
          ⟨whole, "IS".toList ++ ' ' :: t, 0⟩ =
        readNullTest whole left ⟨whole, ' ' :: t, 0⟩ := by
    rw [readComparison_word (by decide) (head?_any_space t),
      if_pos (by decide)]
  rcases hTest with rfl | rfl
  · exact hIs "NULL".toList
  · exact hIs "NOT NULL".toList

/- A list in writing is read as its values. -/
theorem readComparison_list
    {values : List Text}
    (hSome : values ≠ []) :
    readComparison env whole left
        ⟨whole,
          "IN ".toList ++ '(' :: (ValueList.quoted values ++ [')']), 0⟩ =
      .ok
        ⟨left, .inList, some (ValueList.encode values), none, none⟩ := by
  have hText :
      "IN ".toList ++ '(' :: (ValueList.quoted values ++ [')']) =
        "IN".toList ++
          ' ' :: '(' :: (ValueList.quoted values ++ [')']) := rfl
  have hOpens :
      Cursor.atChar '('
          ⟨whole, ' ' :: '(' :: (ValueList.quoted values ++ [')']), 0⟩ =
        (true,
          ⟨whole, '(' :: (ValueList.quoted values ++ [')']), 0⟩) := rfl
  have hGroup :
      Cursor.group
          ⟨whole, '(' :: (ValueList.quoted values ++ [')']), 0⟩ =
        .ok (ValueList.quoted values, ⟨whole, [], 0⟩) :=
    Cursor.group_eq rfl (ValueList.topPieces_quoted hSome).1
  have hNothing :
      nothingAfter whole ⟨whole, [], 0⟩ = .ok () := rfl
  rw [hText, readComparison_word (by decide) (head?_any_space _),
    if_neg (by decide),
    if_pos (by decide), readList, hOpens]
  simp only [Bool.true_eq_false, if_false, hGroup]
  change
    nothingAfter whole ⟨whole, [], 0⟩ >>= (fun _ => _) = _
  rw [hNothing]
  change
    listValues whole (ValueList.quoted values) >>= (fun _ => _) = _
  rw [listValues_quoted whole hSome]
  rfl

------------------------------------------------------------
-- Parameters
------------------------------------------------------------

/- A parameter in writing starts as one, in front of its name. -/
theorem parameterStart?_parameterText
    (name value : Text) :
    parameterStart? (parameterText name value) =
      some
        ⟨parameterText name value,
          '(' :: (Quoted.quote name ++ [')']) ++
            (" = ".toList ++ Quoted.quote value), 0⟩ := by
  have hParen : isNameChar '(' = false := by decide +kernel
  have hWord :
      (Cursor.ofText (parameterText name value)).word =
        ("PARAMETER".toList,
          ⟨parameterText name value,
            '(' :: (Quoted.quote name ++ [')']) ++
              (" = ".toList ++ Quoted.quote value), 0⟩) := by
    apply Cursor.word_of_append "PARAMETER".toList
    · rfl
    · exact Text.isNameChar_of_isLetters (by decide)
    · simpa using hParen
  rw [parameterStart?, hWord]
  rfl

/- The name of a parameter in writing is read in quotes. -/
theorem group_parameterName
    (whole name rest : Text) :
    Cursor.group
        ⟨whole, '(' :: (Quoted.quote name ++ [')']) ++ rest, 0⟩ =
      .ok (Quoted.quote name, ⟨whole, rest, 0⟩) := by
  apply Cursor.group_eq
  · simp
  · exact (Quoted.isPart_quote name).balanced

theorem skipParameterSign_sign
    (whole : Text)
    {t : Text}
    (hHead : t.head?.any Cursor.isSymbol = false) :
    skipParameterSign whole ⟨whole, ' ' :: '=' :: t, 0⟩ =
      .ok ⟨whole, t, 0⟩ := by
  have hSkip :
      Cursor.skipBlanks ⟨whole, ' ' :: '=' :: t, 0⟩ =
        ⟨whole, '=' :: t, 0⟩ := rfl
  have hSymbol :
      Cursor.symbol? ⟨whole, '=' :: t, 0⟩ =
        (some ['='], ⟨whole, t, 0⟩) :=
    Cursor.symbol?_of_append ['='] rfl
      (List.forall_mem_singleton.mpr (by decide)) hHead
  rw [skipParameterSign, hSkip, hSymbol]
  rfl

theorem parameterName_quote
    (name : Text) :
    parameterName (Quoted.quote name) =
      if Text.IsBlank (Name.unquote name) then
        .error .emptyParameterName
      else .ok (Name.unquote name) := by
  rw [parameterName]
  simp only [Quoted.trim_quote, Quoted.strip_quote]

theorem parameterValue_quote
    {value : Text}
    (hValue : ¬ Text.IsBlank value) :
    parameterValue (' ' :: Quoted.quote value) = .ok value := by
  rw [parameterValue]
  simp only [Quoted.strip_trim_blank_quote, if_neg hValue]

/- A parameter in writing is read by its name without quotes. -/
theorem ofText_parameterText
    {name value : Text}
    (hValue : ¬ Text.IsBlank value) :
    ofText env (parameterText name value) =
      if Text.IsBlank (Name.unquote name) then
        .error .emptyParameterName
      else
        .ok
          ⟨Name.unquote name, .parameter, some value, none, none⟩ := by
  have hSome : parameterText name value ≠ [] :=
    List.append_ne_nil_of_left_ne_nil (by decide) _
  have hSign :
      skipParameterSign (parameterText name value)
          ⟨parameterText name value,
            " = ".toList ++ Quoted.quote value, 0⟩ =
        .ok
          ⟨parameterText name value, ' ' :: Quoted.quote value, 0⟩ :=
    skipParameterSign_sign _ rfl
  rw [ofText, if_neg hSome, parameterStart?_parameterText]
  simp only [readParameter, group_parameterName]
  change parameterName (Quoted.quote name) >>= (fun name => _) = _
  rw [parameterName_quote]
  by_cases hBlank : Text.IsBlank (Name.unquote name)
  · rw [if_pos hBlank, if_pos hBlank]
    rfl
  · rw [if_neg hBlank, if_neg hBlank]
    change
      skipParameterSign (parameterText name value) _ >>=
        (fun s => _) = _
    rw [hSign]
    change
      parameterValue (' ' :: Quoted.quote value) >>=
        (fun value => _) = _
    rw [parameterValue_quote hValue]
    rfl

------------------------------------------------------------
-- Predicates That Are Read Back
------------------------------------------------------------

variable {p q : Predicate}

/-
  The right side is read back: the literal is recalled, or
  the name of the field is, and it spells no keyword and no
  truth value.
-/
def RightRecalled
    (env : Environment)
    (p : Predicate) : Prop :=
  match p.rightField, p.value with
  | some field, _ =>
      env.Recalls field ∧
        Name.Avoids
          ["AND".toList, "OR".toList, "TRUE".toList, "FALSE".toList]
          field
  | none, some v => v.Recalled
  | none, none => True

instance
    (env : Environment)
    (p : Predicate) :
    Decidable (p.RightRecalled env) := by
  unfold RightRecalled
  split <;> infer_instance

/-
  The text of the predicate says all of it. The name of a
  parameter must not be in quotes of its own. Any other name
  must be recalled and must not spell a keyword that could
  stand in its place.
-/
def Recalled
    (env : Environment)
    (p : Predicate) : Prop :=
  if p.comparison = .parameter then Name.IsBare p.left
  else
    (env.Recalls p.left ∧
      Name.Avoids ["NOT".toList, "AND".toList, "OR".toList] p.left) ∧
      p.RightRecalled env

instance
    (env : Environment)
    (p : Predicate) :
    Decidable (p.Recalled env) := by
  unfold Recalled
  infer_instance

theorem readComparison_ending_of_rightRecalled
    (hCompares : Compares left p)
    (hRight : p.RightRecalled env) :
    readComparison env whole left ⟨whole, p.ending, 0⟩ = .ok p := by
  cases hCompares with
  | test comparison hTest =>
      have hEnding :
          (bare left comparison).ending = comparison.spelling := by
        rcases hTest with rfl | rfl <;> rfl
      rw [hEnding]
      exact readComparison_test hTest
  | list values =>
      have hSome := ValueList.decode_ne_nil values
      have hValues := ValueList.encode_decode values
      change
        readComparison env whole left
          ⟨whole,
            "IN ".toList ++
              '(' :: (ValueList.quoted (ValueList.decode values)
                ++ [')']), 0⟩ = _
      rw [readComparison_list hSome, hValues]
  | value comparison v hBinary hRead =>
      have hOperand := Literal.isOperand_written hRead
      rw [ending_binary hBinary]
      change
        readComparison env whole left
          ⟨whole, comparison.spelling ++ ' ' :: v.written, 0⟩ = _
      rw [readComparison_spelling hBinary]
      exact
        readRight_of_some hOperand.some hOperand.trimmed
          (Literal.ofText?_written hRead hRight)
  | field comparison field hBinary =>
      rcases hRight with ⟨hRecalls, hAvoids⟩
      have hNone : Literal.readBoolean? field = none := by
        apply Literal.readBoolean?_eq_none_iff.mpr
        have hBoth :
            Name.Avoids
              (["AND".toList, "OR".toList] ++
                ["TRUE".toList, "FALSE".toList])
              field := hAvoids
        exact (Name.avoids_append.mp hBoth).2
      have hField :=
        Environment.fieldName_written_eq_ok_iff.mpr hRecalls
      rw [ending_binary hBinary]
      change
        readComparison env whole left
          ⟨whole, comparison.spelling ++ ' ' :: Name.written field,
            0⟩ = _
      rw [readComparison_spelling hBinary, readRight_name, hNone,
        hField]
      rfl

/-
  What is read back with an equal value on its right had its
  right side recalled, as far as no keyword is in the way.
-/
theorem rightRecalled_of_readComparison_ending
    (hCompares : Compares left p)
    {field : Text}
    (hRead :
      readComparison env whole field ⟨whole, p.ending, 0⟩ = .ok q)
    (hSame : SameValue p q)
    (hAvoids : p.RightAvoids ["AND".toList, "OR".toList]) :
    p.RightRecalled env := by
  cases hCompares with
  | test comparison hTest => trivial
  | list values => trivial
  | value comparison v hBinary hLiteral =>
      have hOperand := Literal.isOperand_written hLiteral
      rw [ending_binary hBinary] at hRead
      change
        readComparison env whole field
          ⟨whole, comparison.spelling ++ ' ' :: v.written, 0⟩ = _
        at hRead
      rw [readComparison_spelling hBinary] at hRead
      have hValues := hSame.2.2
      cases hValue : q.value with
      | none =>
          rw [hValue] at hValues
          exact hValues.elim
      | some w =>
          rw [hValue] at hValues
          exact
            Literal.recalled_of_ofText?_written hLiteral
              (exists_literal_of_readRight hOperand.trimmed hRead
                hValue)
              hValues
  | field comparison name hBinary =>
      rw [ending_binary hBinary] at hRead
      change
        readComparison env whole field
          ⟨whole, comparison.spelling ++ ' ' :: Name.written name,
            0⟩ = _
        at hRead
      rw [readComparison_spelling hBinary, readRight_name] at hRead
      have hFields := hSame.2.1.2
      cases hBoolean : Literal.readBoolean? name with
      | some value =>
          rw [hBoolean] at hRead
          cases hRead
          exact absurd hFields (by simp)
      | none =>
          rw [hBoolean] at hRead
          rcases map_eq_ok_iff.mp hRead with ⟨other, hField, rfl⟩
          cases hFields
          refine
            ⟨Environment.fieldName_written_eq_ok_iff.mp hField, ?_⟩
          exact
            Name.avoids_append.mpr
              ⟨hAvoids name rfl,
                Literal.readBoolean?_eq_none_iff.mp hBoolean⟩

------------------------------------------------------------
-- The Whole Predicate
------------------------------------------------------------

/- A predicate in writing is a text that can be a part. -/
theorem isTrimmed_written
    (hShaped : IsShaped p) :
    Text.IsTrimmed p.written ∧ p.written.head? ≠ some '(' ∧
      p.written ≠ [] ∧ Text.Balanced p.written := by
  cases hShaped with
  | parameter name value hName hValue =>
      have hHead : (parameterText name value).head? ≠ some '(' := by
        rw [head?_parameterText]
        decide
      rw [written_parameter]
      exact
        ⟨isTrimmed_parameterText name value, hHead,
          List.append_ne_nil_of_left_ne_nil (by decide) _,
          (isPart_parameterText name value).balanced⟩
  | compares hCompares =>
      have hEnding := (isEnding_ending hCompares).1
      have hSome := Name.written_ne_nil p.left
      rw [written_eq hCompares.comparison_ne]
      refine
        ⟨isTrimmed_name_append hEnding, ?_,
          List.append_ne_nil_of_left_ne_nil hSome _,
          Text.balanced_append (Name.balanced_written p.left)
            (Text.balanced_blank_cons hEnding.balanced)⟩
      rw [List.head?_append_of_ne_nil _ hSome]
      exact
        Name.head?_written_ne p.left (by decide)
          (by decide +kernel)

theorem recalled_of_compares
    (hCompares : Compares left p) :
    p.Recalled env ↔
      (env.Recalls p.left ∧
        Name.Avoids ["NOT".toList, "AND".toList, "OR".toList] p.left) ∧
        p.RightRecalled env := by
  rw [Recalled, if_neg hCompares.comparison_ne]

theorem rightAvoids_of_rightRecalled
    (hRight : p.RightRecalled env) :
    p.RightAvoids ["AND".toList, "OR".toList] := by
  intro field hField
  rw [RightRecalled, hField] at hRight
  have hBoth :
      Name.Avoids
        (["AND".toList, "OR".toList] ++
          ["TRUE".toList, "FALSE".toList])
        field := hRight.2
  exact (Name.avoids_append.mp hBoth).1

/- A name that avoids NOT and what is between conditions. -/
theorem avoids_left_iff
    {name : Text} :
    Name.Avoids ["NOT".toList, "AND".toList, "OR".toList] name ↔
      ¬ Text.SameWord name "NOT".toList ∧
        Name.Avoids ["AND".toList, "OR".toList] name :=
  List.forall_mem_cons

/- A predicate that is recalled is a part without NOTs. -/
theorem isPart_of_recalled
    (hShaped : IsShaped p)
    (hRecalled : p.Recalled env) :
    Condition.IsPart p.written ∧
      Condition.bare p.written = (false, p.written) := by
  cases hShaped with
  | parameter name value hName hValue =>
      rw [written_parameter]
      exact
        ⟨isPart_parameterText name value,
          bare_parameterText name value⟩
  | compares hCompares =>
      rcases (recalled_of_compares hCompares).mp hRecalled
        with ⟨⟨-, hLeft⟩, hRight⟩
      rcases avoids_left_iff.mp hLeft with ⟨hNot, hBetween⟩
      rcases isEnding_ending hCompares with ⟨hEnding, hPart⟩
      rw [written_eq hCompares.comparison_ne]
      exact
        ⟨(isPart_name_append_iff hEnding).mpr
            ⟨hBetween,
              hPart.mpr (rightAvoids_of_rightRecalled hRight)⟩,
          bare_name_of_avoids hEnding hNot⟩

/- A predicate that is recalled is read back as it was. -/
theorem ofText_written
    (hShaped : IsShaped p)
    (hRecalled : p.Recalled env) :
    ofText env p.written = .ok p := by
  cases hShaped with
  | parameter name value hName hValue =>
      have hBare := Name.unquote_of_isBare hRecalled
      simp only at hBare
      rw [written_parameter, ofText_parameterText hValue, hBare,
        if_neg hName]
  | compares hCompares =>
      rcases (recalled_of_compares hCompares).mp hRecalled
        with ⟨⟨hRecalls, -⟩, hRight⟩
      have hEnding := (isEnding_ending hCompares).1
      have hField :=
        Environment.fieldName_written_eq_ok_iff.mpr hRecalls
      rw [hCompares.left_eq] at hField
      rw [written_eq hCompares.comparison_ne,
        ofText_name_append hEnding, hCompares.left_eq, hField]
      exact readComparison_ending_of_rightRecalled hCompares hRight

/-
  A part without NOTs that is read back with an equal value
  was recalled.
-/
theorem recalled_of_ofText_written
    (hShaped : IsShaped p)
    (hPart : Condition.IsPart p.written)
    (hBare : (Condition.bare p.written).1 = false)
    (hRead : ofText env (Condition.bare p.written).2 = .ok q)
    (hSame : SameValue p q) :
    p.Recalled env := by
  cases hShaped with
  | parameter name value hName hValue =>
      rw [written_parameter, bare_parameterText,
        ofText_parameterText hValue] at hRead
      split_ifs at hRead
      cases hRead
      exact Name.unquote_eq_self_iff.mp hSame.1.1.symm
  | compares hCompares =>
      rcases isEnding_ending hCompares with ⟨hEnding, hRight⟩
      rw [written_eq hCompares.comparison_ne] at hPart hBare hRead
      rcases (isPart_name_append_iff hEnding).mp hPart
        with ⟨hLeft, hEndingPart⟩
      have hNot : ¬ Text.SameWord p.left "NOT".toList := by
        intro hName
        rw [bare_name_of_not hEnding hName] at hBare
        exact absurd hBare (by decide)
      rw [bare_name_of_avoids hEnding hNot,
        ofText_name_append hEnding, bind_eq_ok_iff] at hRead
      rcases hRead with ⟨field, hField, hComparison⟩
      have hEq := (compares_of_readComparison hComparison).left_eq
      rw [← hEq, ← hSame.1.1,
        Environment.fieldName_written_eq_ok_iff] at hField
      exact
        (recalled_of_compares hCompares).mpr
          ⟨⟨hField, avoids_left_iff.mpr ⟨hNot, hLeft⟩⟩,
            rightRecalled_of_readComparison_ending hCompares
              hComparison hSame (hRight.mp hEndingPart)⟩

end Predicate

end SqlSelect
