import SqlSelect.Proofs.Nesting.Words
import SqlSelect.Proofs.Recall.Parts
import SqlSelect.Proofs.Recall.Shapes

/-
  Reading back the right side of a comparison. A literal is
  read back if its text says all of it, and a field if its
  name is recalled and is no truth value.

  Main statements:
    * `Literal.ofText?_name`
    * `Literal.ofText?_quoted`
    * `Name.topWords_written`
    * `Predicate.exists_literal_of_readRight`
    * `Predicate.readRight_name`
-/

namespace SqlSelect

------------------------------------------------------------
-- Names that Look Like Literals
------------------------------------------------------------

namespace Literal

theorem stringAfter?_of_isPlainName
    {t : Text}
    (keyword : Text)
    (hPlain : Text.IsPlainName t) :
    stringAfter? keyword t = none := by
  have hDrop :
      ∀ c ∈ t.drop keyword.length, isNameChar c = true :=
    fun c hMem => Name.isNameChar_of_mem hPlain (List.mem_of_mem_drop hMem)
  have hTrim :
      Text.trim (t.drop keyword.length) = t.drop keyword.length :=
    Text.trim_eq_of_isTrimmed
      (Text.isTrimmed_of_forall fun c hMem =>
        isBlank_eq_false_of_isNameChar (hDrop c hMem))
  rw [stringAfter?, hTrim]
  apply Quoted.unquote?_eq_none_of_head
  intro hHead
  exact
    not_isDelimiter_of_isNameChar
      (hDrop _ (List.mem_of_mem_head? hHead)) (by decide)

theorem bracketed?_eq_none
    {t : Text}
    (hHead : t.head? ≠ some '[') :
    bracketed? t = none :=
  if_neg fun hBoth => hHead hBoth.2.1

/- A text in double quotes is no date. -/
theorem readDate?_quoted
    (name : Text) :
    readDate? (Name.quoted name) = none := by
  have hWord
      (word : Text)
      (hSome : word ≠ [])
      (hInitial : Text.initial word ≠ some '"') :
      Text.startsWord word (Name.quoted name) = false := by
    apply Text.startsWord_eq_false_of_initial hSome
    have hQuote : Text.initial (Name.quoted name) = some '"' := rfl
    rw [hQuote]
    exact hInitial
  rw [readDate?, bracketed?_eq_none (by simp [Name.quoted])]
  simp only [hWord "TIMESTAMP".toList (by decide) (by decide),
    hWord "DATE".toList (by decide) (by decide),
    Bool.false_eq_true, if_false]

theorem readDate?_name
    (name : Text) :
    readDate? (Name.written name) = none := by
  rcases Name.written_cases name
    with ⟨hPlain, hText⟩ | ⟨-, hText⟩
  · rw [readDate?,
      bracketed?_eq_none
        (Name.head?_written_ne name (by decide) (by decide +kernel))]
    rw [hText]
    simp only [stringAfter?_of_isPlainName _ hPlain,
      Option.bind_none, ite_self]
  · rw [hText]
    exact readDate?_quoted name

------------------------------------------------------------
-- Texts that Begin like No Number
------------------------------------------------------------

section

variable {c : Char}
variable (t : Text)

/- The character is the first of no number. -/
def IsNoNumber
    (c : Char) : Prop :=
  c.isDigit = false ∧ c ∉ "+-.".toList

instance
    (c : Char) :
    Decidable (IsNoNumber c) := by
  unfold IsNoNumber
  infer_instance

theorem splitSign_cons
    (hFirst : IsNoNumber c) :
    splitSign (c :: t) = (false, c :: t) := by
  unfold splitSign
  split
  · rename_i rest hText
    cases hText
    exact absurd hFirst (by decide)
  · rename_i rest hText
    cases hText
    exact absurd hFirst (by decide)
  · rfl

theorem integerOfText?_cons
    (hFirst : IsNoNumber c) :
    integerOfText? (c :: t) = none := by
  apply integerOfText?_eq_none
  rw [splitSign_cons t hFirst]
  intro hDigits
  have hDigit := (isDigits_cons.mp hDigits).1
  simp [hFirst.1] at hDigit

theorem numeralOfText?_cons
    (hFirst : IsNoNumber c) :
    Numeral.ofText? (c :: t) = none := by
  have hPoint : c ≠ '.' := by
    rintro rfl
    exact absurd hFirst (by decide)
  simp only [Numeral.ofText?, splitSign_cons t hFirst]
  rw [Text.cutAt?, if_neg hPoint]
  cases Text.cutAt? '.' t with
  | none => rfl
  | some parts =>
      apply if_neg
      rintro ⟨-, hWhole, -⟩
      have hDigit := (isDigits_cons.mp hWhole).1
      simp [hFirst.1] at hDigit

/- Such a text is a string, a date, a truth value or nothing. -/
theorem ofText?_cons
    (hTrim : Text.trim (c :: t) = c :: t)
    (hFirst : IsNoNumber c) :
    ofText? (c :: t) =
      (((Quoted.unquote? (c :: t)).map .string).or
        ((readDate? (c :: t)).map .date)).or
        ((readBoolean? (c :: t)).map .boolean) := by
  have hPoint :
      ofTrimmed? (pointForm (c :: t)) (c :: t) = none := by
    rw [pointForm]
    split_ifs
    · simp [ofTrimmed?, numeralOfText?_cons t hFirst]
    · simp [ofTrimmed?, numeralOfText?_cons t hFirst]
  rw [ofText?_eq]
  simp only [ofForm?, hTrim, hPoint]
  simp [ofTrimmed?, integerOfText?_cons t hFirst, Option.or_assoc]

end

theorem exists_head_name
    (name : Text) :
    ∃ c rest, Name.written name = c :: rest ∧ IsNoNumber c := by
  rcases Name.written_cases name
    with ⟨hPlain, hText⟩ | ⟨-, hText⟩
  · rcases Name.exists_head_of_isPlainName hPlain
      with ⟨c, rest, hName, hLetter⟩
    refine ⟨c, rest, hText.trans hName, ?_, ?_⟩
    · cases hDigit : c.isDigit with
      | false => rfl
      | true =>
          rw [isNameStart_eq_false_of_isDigit hDigit] at hLetter
          exact absurd hLetter (by decide)
    · have hSigns :
          "+-.".toList.all (fun d => !isNameStart d) = true := by
        decide +kernel
      intro hMem
      have hOther := List.all_eq_true.mp hSigns c hMem
      simp [hLetter] at hOther
  · exact ⟨'"', _, hText, by decide⟩

theorem readBoolean?_quoted
    (name : Text) :
    readBoolean? (Name.quoted name) = none := by
  have hWord
      (word : Text)
      (hLetters : Text.IsLetters word) :
      ¬ Text.SameWord (Name.quoted name) word := by
    intro hSame
    have hQuoted := Text.isLetters_of_sameWord hSame hLetters
    have hQuote :=
      Text.isAlpha_of_mem hQuoted
        (List.mem_cons_self : '"' ∈ Name.quoted name)
    exact absurd hQuote (by decide)
  rw [readBoolean?, if_neg (hWord "true".toList (by decide)),
    if_neg (hWord "false".toList (by decide))]

theorem readBoolean?_name
    (name : Text) :
    readBoolean? (Name.written name) = readBoolean? name := by
  rcases Name.written_cases name
    with ⟨-, hText⟩ | ⟨hNotPlain, hText⟩
  · rw [hText]
  · have hWord
        (word : Text)
        (hLetters : Text.IsLetters word) :
        ¬ Text.SameWord name word := by
      intro hSame
      exact hNotPlain (Name.isPlainName_of_sameWord hLetters hSame)
    rw [hText, readBoolean?_quoted, readBoolean?,
      if_neg (hWord "true".toList (by decide)),
      if_neg (hWord "false".toList (by decide))]

/- A name in writing is no literal but a truth value. -/
theorem ofText?_name
    (name : Text) :
    ofText? (Name.written name) =
      (readBoolean? name).map .boolean := by
  have hString : Quoted.unquote? (Name.written name) = none :=
    Quoted.unquote?_eq_none_of_head
      (Name.head?_written_ne name (by decide) (by decide +kernel))
  have hTrim := Name.trim_written name
  have hDate := readDate?_name name
  have hBoolean := readBoolean?_name name
  rcases exists_head_name name with ⟨c, rest, hText, hFirst⟩
  rw [hText] at hString hTrim hDate hBoolean ⊢
  rw [ofText?_cons rest hTrim hFirst]
  simp [hString, hDate, hBoolean]

/- A name in double quotes is no literal at all. -/
theorem ofText?_quoted
    (name : Text) :
    ofText? (Name.quoted name) = none := by
  have hTrim := Name.trim_quoted name
  have hString : Quoted.unquote? (Name.quoted name) = none :=
    Quoted.unquote?_eq_none_of_head (by simp [Name.quoted])
  have hDate := readDate?_quoted name
  have hBoolean := readBoolean?_quoted name
  simp only [Name.quoted] at hTrim hString hDate hBoolean ⊢
  rw [ofText?_cons _ hTrim (by decide)]
  simp [hString, hDate, hBoolean]

theorem readBoolean?_eq_none_iff
    {t : Text} :
    readBoolean? t = none ↔
      Name.Avoids ["TRUE".toList, "FALSE".toList] t := by
  have hTrue :
      Text.SameWord t "TRUE".toList ↔
        Text.SameWord t "true".toList := Iff.rfl
  have hFalse :
      Text.SameWord t "FALSE".toList ↔
        Text.SameWord t "false".toList := Iff.rfl
  rw [readBoolean?, Name.avoids_pair, hTrue, hFalse]
  split_ifs with hSame hSame'
  · exact
      ⟨fun h => absurd h (by simp), fun h => absurd hSame h.1⟩
  · exact
      ⟨fun h => absurd h (by simp), fun h => absurd hSame' h.2⟩
  · exact ⟨fun _ => ⟨hSame, hSame'⟩, fun _ => rfl⟩

end Literal

------------------------------------------------------------
-- Names Are One Word
------------------------------------------------------------

/- A name in writing is one word. -/
theorem Name.topWords_written
    (name : Text) :
    Text.topWords (written name) = .ok ⟨[([], written name)], []⟩ :=
  Text.topWords_word (written_ne_nil name) (balanced_written name)
    (passes_written
      (fun c => isBlank_eq_false_of_isNameChar (c := c)) name)

------------------------------------------------------------
-- The Right Side
------------------------------------------------------------

namespace Predicate

variable {env : Environment}
variable {predicate left : Text}
variable {comparison : Comparison}
variable {p : Predicate}

theorem trim_blank_cons
    {right : Text}
    (hTrimmed : Text.IsTrimmed right) :
    Text.trim (' ' :: right) = right := by
  have hBlank : Text.IsBlank [' '] := by decide
  have hTrim := Text.trim_append_left right hBlank
  rw [List.singleton_append] at hTrim
  rw [hTrim]
  exact Text.trim_eq_of_isTrimmed hTrimmed

theorem readRight_of_some
    {right : Text}
    {v : Literal}
    (hSome : right ≠ [])
    (hTrimmed : Text.IsTrimmed right)
    (hLiteral : Literal.ofText? right = some v) :
    readRight env predicate left comparison (' ' :: right) =
      .ok ⟨left, comparison, some v.shown, none, some v⟩ := by
  rw [readRight]
  simp only [trim_blank_cons hTrimmed, if_neg hSome, hLiteral]
  rfl

/- What is read has a value only if a literal was read. -/
theorem exists_literal_of_readRight
    {right : Text}
    {v : Literal}
    (hTrimmed : Text.IsTrimmed right)
    (hRead :
      readRight env predicate left comparison (' ' :: right) =
        .ok p)
    (hValue : p.value = some v) :
    Literal.ofText? right = some v := by
  rw [readRight] at hRead
  simp only [trim_blank_cons hTrimmed] at hRead
  split_ifs at hRead
  split at hRead
  · rename_i w hLiteral
    cases hRead
    rw [hLiteral]
    exact hValue
  · rw [bind_eq_ok_iff] at hRead
    rcases hRead with ⟨words, -, hRest⟩
    split_ifs at hRest
    rw [map_eq_ok_iff] at hRest
    rcases hRest with ⟨field, -, rfl⟩
    exact absurd hValue (by simp [bare])

/- What a name on the right side is read as. -/
theorem readRight_name
    (name : Text) :
    readRight env predicate left comparison
        (' ' :: Name.written name) =
      match Literal.readBoolean? name with
      | some value =>
          .ok
            ⟨left, comparison, some (Literal.boolean value).shown,
              none, some (.boolean value)⟩
      | none =>
          (env.fieldName (Name.written name)).map fun field =>
            ⟨left, comparison, none, some field, none⟩ := by
  have hTrim := trim_blank_cons (Name.isTrimmed_written name)
  have hWords := Name.topWords_written name
  have hFew :
      ¬ 1 < (Words.words ⟨[([], Name.written name)], []⟩).length := by
    simp [Words.words]
  rw [readRight]
  simp only [hTrim, if_neg (Name.written_ne_nil name),
    Literal.ofText?_name]
  cases Literal.readBoolean? name with
  | some value => rfl
  | none =>
      simp only [Option.map_none, hWords, bind, Except.bind,
        if_neg hFew]
      rfl

end Predicate

end SqlSelect
