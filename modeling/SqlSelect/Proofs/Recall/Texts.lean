import SqlSelect.Proofs.Recall.Lists

/-
  Predicates as texts. What compares is a name and what
  follows it, with a blank between them. Such a text is
  balanced and trimmed, and it is one part of a condition
  unless one of its names spells a keyword.

  Main statements:
    * `Predicate.ending`
    * `Predicate.written_eq`
    * `Predicate.isEnding_ending`
    * `Predicate.isPart_name_append_iff`
    * `Predicate.isPart_parameterText`
-/

namespace SqlSelect

------------------------------------------------------------
-- Comparisons
------------------------------------------------------------

namespace Comparison

/- The text begins like a comparison. -/
def Starts
    (t : Text) : Prop :=
  t.head?.any (fun c => "=<>LRI".toList.contains c) = true

instance
    (t : Text) :
    Decidable (Starts t) := by
  unfold Starts
  infer_instance

theorem Starts.append
    {s : Text}
    (t : Text)
    (hStarts : Starts s) :
    Starts (s ++ t) := by
  cases s with
  | nil => exact absurd hStarts (by decide)
  | cons c s => exact hStarts

theorem starts_spelling
    {comparison : Comparison}
    (hOther : comparison ≠ .parameter) :
    Starts comparison.spelling := by
  cases comparison with
  | parameter => exact absurd rfl hOther
  | _ => decide

theorem isTrimmed_spelling
    (comparison : Comparison) :
    Text.IsTrimmed comparison.spelling := by
  cases comparison <;> decide

theorem isPart_spelling
    (comparison : Comparison) :
    Condition.IsPart comparison.spelling := by
  cases comparison <;>
    exact ⟨by decide, by decide +kernel, by decide +kernel⟩

theorem spelling_ne_nil
    (comparison : Comparison) :
    comparison.spelling ≠ [] := by
  cases comparison <;> decide

end Comparison

------------------------------------------------------------
-- What Follows the Name
------------------------------------------------------------

namespace Predicate

/- The text of a predicate that compares, behind its name. -/
def ending
    (p : Predicate) : Text :=
  match p.comparison with
  | .isNull => p.comparison.spelling
  | .isNotNull => p.comparison.spelling
  | .inList =>
      "IN ".toList ++
        '(' :: (ValueList.quoted
          (ValueList.decode (p.rightText.getD [])) ++ [')'])
  | comparison => comparison.spelling ++ ' ' :: p.rightOperand

theorem written_eq
    {p : Predicate}
    (hOther : p.comparison ≠ .parameter) :
    p.written = Name.written p.left ++ ' ' :: p.ending := by
  rw [written, ending]
  cases hComparison : p.comparison with
  | parameter => exact absurd hComparison hOther
  | inList => simp [ValueList.quoted]
  | _ => simp

theorem ending_binary
    {p : Predicate}
    (hBinary : p.comparison.isBinary = true) :
    p.ending = p.comparison.spelling ++ ' ' :: p.rightOperand := by
  have hNot
      {comparison : Comparison}
      (hComparison : p.comparison = comparison) :
      comparison.isBinary = true := by
    rw [← hComparison]
    exact hBinary
  rw [ending]
  split
  · exact absurd (hNot ‹_›) (by decide)
  · exact absurd (hNot ‹_›) (by decide)
  · exact absurd (hNot ‹_›) (by decide)
  · rfl

/-
  A text that can stand to the right of a name: it begins
  like a comparison, and is balanced and trimmed.
-/
structure IsEnding
    (t : Text) : Prop where
  starts : Comparison.Starts t
  trimmed : Text.IsTrimmed t
  balanced : Text.Balanced t

theorem IsEnding.some
    {t : Text}
    (hEnding : IsEnding t) :
    t ≠ [] := by
  rintro rfl
  exact absurd hEnding.starts (by decide)

variable {left right : Text}
variable {comparison : Comparison}

theorem isEnding_binary
    (hOther : comparison ≠ .parameter)
    (hSome : right ≠ [])
    (hTrimmed : Text.IsTrimmed right)
    (hBalanced : Text.Balanced right) :
    IsEnding (comparison.spelling ++ ' ' :: right) := by
  have hTrimmedAll :=
    Text.isTrimmed_append_blank_cons
      (Comparison.spelling_ne_nil comparison) hSome
      (Comparison.isTrimmed_spelling comparison) hTrimmed
  exact
    ⟨(Comparison.starts_spelling hOther).append _, hTrimmedAll,
      Text.balanced_append
        (Comparison.isPart_spelling comparison).balanced
        (Text.balanced_blank_cons hBalanced)⟩

theorem isPart_binary_iff
    (hBalanced : Text.Balanced right) :
    Condition.IsPart (comparison.spelling ++ ' ' :: right) ↔
      Condition.IsPart right := by
  have hSpelling := Comparison.isPart_spelling comparison
  rw [Condition.isPart_append_iff hSpelling.balanced
      (Text.balanced_blank_cons hBalanced) fun _ => Text.seam_of_blank _ _ (by decide),
    Condition.isPart_cons_blank_iff hBalanced]
  exact and_iff_right hSpelling

theorem isEnding_list
    {interior : Text}
    (hBalanced : Text.Balanced interior) :
    IsEnding ("IN ".toList ++ '(' :: (interior ++ [')'])) ∧
      Condition.IsPart
        ("IN ".toList ++ '(' :: (interior ++ [')'])) := by
  have hGroup := Condition.isPart_group hBalanced
  have hWord : Condition.IsPart "IN ".toList :=
    ⟨by decide, by decide +kernel, by decide +kernel⟩
  have hSeam :
      Text.Seam "IN ".toList ('(' :: (interior ++ [')'])) :=
    Or.inr (Or.inr (by decide))
  refine ⟨⟨rfl, ⟨rfl, ?_⟩, ?_⟩, ?_⟩
  · rw [List.getLast?_append, Text.getLast?_surround]
    decide
  · exact
      Text.balanced_append hWord.balanced hGroup.balanced
  · exact
      (Condition.isPart_append_iff hWord.balanced hGroup.balanced
        fun _ => hSeam).mpr ⟨hWord, hGroup⟩

/- The field on the right, if any, is none of the words. -/
def RightAvoids
    (words : List Text)
    (p : Predicate) : Prop :=
  ∀ field, p.rightField = some field → Name.Avoids words field

/-
  What follows the name is an ending, and it is a part unless
  the field on the right spells a keyword.
-/
theorem isEnding_ending
    {p : Predicate}
    (hCompares : Compares left p) :
    IsEnding p.ending ∧
      (Condition.IsPart p.ending ↔
        p.RightAvoids ["AND".toList, "OR".toList]) := by
  have hNone
      (hPart : Condition.IsPart p.ending)
      (hField : p.rightField = none) :
      Condition.IsPart p.ending ↔
        p.RightAvoids ["AND".toList, "OR".toList] := by
    refine ⟨fun _ field hSome => ?_, fun _ => hPart⟩
    rw [hField] at hSome
    exact absurd hSome (by simp)
  cases hCompares with
  | test comparison hTest =>
      have hEnding :
          (bare left comparison).ending = comparison.spelling := by
        rcases hTest with rfl | rfl <;> rfl
      have hOther : comparison ≠ .parameter := by
        rcases hTest with rfl | rfl <;> decide
      have hPart := Comparison.isPart_spelling comparison
      rw [hEnding] at hNone ⊢
      exact
        ⟨⟨Comparison.starts_spelling hOther,
            Comparison.isTrimmed_spelling comparison,
            hPart.balanced⟩,
          hNone hPart rfl⟩
  | list values =>
      have hSome := ValueList.decode_ne_nil values
      have hBalanced := (ValueList.topPieces_quoted hSome).1
      rcases isEnding_list hBalanced with ⟨hEnding, hPart⟩
      exact ⟨hEnding, hNone hPart rfl⟩
  | value comparison v hBinary hRead =>
      have hOther : comparison ≠ .parameter := by
        rintro rfl
        cases hBinary
      have hOperand := Literal.isOperand_written hRead
      rw [ending_binary hBinary] at hNone ⊢
      exact
        ⟨isEnding_binary hOther hOperand.some hOperand.trimmed
            hOperand.part.balanced,
          hNone
            ((isPart_binary_iff hOperand.part.balanced).mpr
              hOperand.part)
            rfl⟩
  | field comparison field hBinary =>
      have hOther : comparison ≠ .parameter := by
        rintro rfl
        cases hBinary
      have hBalanced := Name.balanced_written field
      rw [ending_binary hBinary]
      refine
        ⟨isEnding_binary hOther (Name.written_ne_nil field)
            (Name.isTrimmed_written field) hBalanced, ?_⟩
      change
        Condition.IsPart
          (comparison.spelling ++ ' ' :: Name.written field) ↔ _
      rw [isPart_binary_iff hBalanced, Name.isPart_written_iff]
      constructor
      · intro hAvoids other hEq
        cases hEq
        exact hAvoids
      · intro hAvoids
        exact hAvoids field rfl

------------------------------------------------------------
-- The Whole Text
------------------------------------------------------------

/- The name and what follows it make a trimmed text. -/
theorem isTrimmed_name_append
    {t : Text}
    (hEnding : IsEnding t) :
    Text.IsTrimmed (Name.written left ++ ' ' :: t) := by
  exact
    Text.isTrimmed_append_blank_cons (Name.written_ne_nil left)
      hEnding.some (Name.isTrimmed_written left) hEnding.trimmed

theorem isPart_name_append_iff
    {t : Text}
    (hEnding : IsEnding t) :
    Condition.IsPart (Name.written left ++ ' ' :: t) ↔
      Name.Avoids ["AND".toList, "OR".toList] left ∧
        Condition.IsPart t := by
  rw [Condition.isPart_append_iff (Name.balanced_written left)
      (Text.balanced_blank_cons hEnding.balanced)
      fun _ => Text.seam_of_blank _ _ (by decide),
    Condition.isPart_cons_blank_iff hEnding.balanced,
    Name.isPart_written_iff]

/- The text of a parameter, as its word and what follows it. -/
def parameterText
    (name value : Text) : Text :=
  "PARAMETER".toList ++
    ('(' :: (Quoted.quote name ++ [')']) ++
      (" = ".toList ++ Quoted.quote value))

theorem written_parameter
    (name value : Text) :
    written ⟨name, .parameter, some value, none, none⟩ =
      parameterText name value := by
  have hOpen : "PARAMETER(".toList = "PARAMETER".toList ++ ['('] := by
    decide
  have hClose : ") = ".toList = ')' :: " = ".toList := by
    decide
  unfold parameterText
  simp only [written, hOpen, hClose, Option.getD_some,
    List.append_assoc, List.cons_append, List.nil_append]

/- The text of a parameter is one part. -/
theorem isPart_parameterText
    (name value : Text) :
    Condition.IsPart (parameterText name value) := by
  have hGroup :=
    Condition.isPart_group (Quoted.isPart_quote name).balanced
  have hSign : Condition.IsPart " = ".toList :=
    ⟨by decide, by decide +kernel, by decide +kernel⟩
  have hValue := Quoted.isPart_quote value
  have hRight :
      Condition.IsPart (" = ".toList ++ Quoted.quote value) :=
    (Condition.isPart_append_iff hSign.balanced hValue.balanced
      fun _ => Or.inr (Or.inr (by decide))).mpr ⟨hSign, hValue⟩
  have hRest :
      Condition.IsPart
        ('(' :: (Quoted.quote name ++ [')']) ++
          (" = ".toList ++ Quoted.quote value)) :=
    (Condition.isPart_append_iff hGroup.balanced hRight.balanced
      fun _ => Or.inr (Or.inl rfl)).mpr ⟨hGroup, hRight⟩
  have hWord : Text.IsLetters "PARAMETER".toList := by decide
  have hFree
      (word : Text)
      (hLetters : Text.IsLetters word)
      (hInitial :
        Text.initial word ≠ Text.initial "PARAMETER".toList)
      (hTail :
        Text.IsFree [word]
          ('(' :: (Quoted.quote name ++ [')']) ++
            (" = ".toList ++ Quoted.quote value))) :
      Text.IsFree [word] (parameterText name value) := by
    have hWords : ∀ w ∈ [word], Text.IsLetters w := by
      simpa using hLetters
    have hCut :=
      Text.cutOf_otherWord_append hWords hWord hInitial
        (Text.sameWord_refl _) hRest.balanced rfl
    rw [hTail] at hCut
    exact hCut
  refine ⟨?_, ?_, ?_⟩
  · exact
      Text.balanced_append
        (by decide : Text.Balanced "PARAMETER".toList)
        hRest.balanced
  · exact
      hFree "OR".toList Condition.isLetters_or (by decide)
        hRest.free_or
  · exact
      hFree "AND".toList Condition.isLetters_and (by decide)
        hRest.free_and

theorem isTrimmed_parameterText
    (name value : Text) :
    Text.IsTrimmed (parameterText name value) := by
  unfold parameterText
  refine ⟨rfl, ?_⟩
  rw [List.getLast?_append, List.getLast?_append,
    List.getLast?_append, Quoted.quote, Text.getLast?_surround,
    Option.some_or, Option.some_or, Option.some_or]
  decide

------------------------------------------------------------
-- Leading NOTs
------------------------------------------------------------

/- A text that NOT does not begin is without leading NOTs. -/
theorem bare_of_delimitedLength?
    {t : Text}
    (hTrimmed : Text.IsTrimmed t)
    (hNone : delimitedLength? ["NOT".toList] t = none) :
    Condition.bare t = (false, t) := by
  have hTrim := Text.trim_eq_of_isTrimmed hTrimmed
  have hBlanks : Text.trimStart t = t := by
    have hBoth := Condition.trimStart_trim t
    rwa [hTrim] at hBoth
  have hKeyword :
      (Cursor.ofText (Text.trim t)).afterKeyword?
        "NOT".toList = none := by
    have hRest : (Cursor.ofText t).skipBlanks.rest = t := hBlanks
    simp only [Cursor.afterKeyword?, Condition.words_not, hTrim,
      hRest, hNone, Option.map_none]
  rw [Condition.bare_of_none hKeyword, hTrim]

theorem bare_of_initial
    {t : Text}
    (hTrimmed : Text.IsTrimmed t)
    (hInitial : Text.initial t ≠ some 'n') :
    Condition.bare t = (false, t) := by
  have hStart : Text.startsWord "NOT".toList t = false :=
    Text.startsWord_eq_false_of_initial (by decide)
      fun hSame => hInitial hSame.symm
  apply bare_of_delimitedLength? hTrimmed
  simp only [delimitedLength?, keywordLength?, hStart,
    Bool.false_eq_true, if_false, Option.filter_none]

theorem head?_parameterText
    (name value : Text) :
    (parameterText name value).head? = some 'P' := rfl

theorem bare_parameterText
    (name value : Text) :
    Condition.bare (parameterText name value) =
      (false, parameterText name value) := by
  apply bare_of_initial (isTrimmed_parameterText name value)
  rw [Text.initial, head?_parameterText]
  decide

theorem initial_of_starts
    {t : Text}
    (hStarts : Comparison.Starts t) :
    Text.initial t ≠ some 'n' := by
  cases t with
  | nil => exact absurd hStarts (by decide)
  | cons c t =>
      have hMem : c ∈ "=<>LRI".toList := by
        simpa [Comparison.Starts] using hStarts
      have hAll :
          "=<>LRI".toList.all (fun d => d.toLower != 'n') = true := by
        decide
      have hOther := List.all_eq_true.mp hAll c hMem
      intro hInitial
      apply bne_iff_ne.mp hOther
      simpa [Text.initial] using hInitial

end Predicate

end SqlSelect
