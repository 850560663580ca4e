import SqlSelect.Proofs.Condition.Parts
import SqlSelect.Proofs.Recall.Literals
import SqlSelect.Proofs.Recall.Names

/-
  Operands as parts of a condition. A text is free of the
  keywords between conditions when the texts are that it is
  put together from. A literal in writing always is, and a
  name is unless it spells one of the keywords.

  Main statements:
    * `Condition.isPart_append_iff`
    * `Name.Avoids`
    * `Name.isPart_written_iff`
    * `Literal.isOperand_written`
-/

namespace SqlSelect

------------------------------------------------------------
-- Texts Put Together
------------------------------------------------------------

namespace Text

variable {word s t : Text}

/- At a seam no keyword begins in one text and ends in another. -/
theorem isFree_append_iff
    (hWord : IsLetters word)
    (hFirst : Balanced s)
    (hSecond : Balanced t)
    (hSeam : s ≠ [] → Seam s t) :
    IsFree [word] (s ++ t) ↔ IsFree [word] s ∧ IsFree [word] t := by
  have hCut := cutOf_append_of_single hWord hFirst hSecond hSeam
  have hTail {u : Text} (hBalanced : Balanced u) :
      IsFree [word] u ↔ (cutOf [word] u).tail.length = 0 := by
    rw [List.length_eq_zero_iff]
    constructor
    · intro hFree
      rw [hFree]
    · exact isFree_of_tail hBalanced
  rw [hTail (balanced_append hFirst hSecond), hTail hFirst,
    hTail hSecond, hCut, Cut.length_tail_append]
  omega

theorem seam_of_blank
    (s : Text)
    {c : Char}
    (t : Text)
    (hBlank : SqlSelect.isBlank c = true) :
    Seam s (c :: t) :=
  Or.inr (Or.inl hBlank)

end Text

namespace Condition

variable {s t : Text}

theorem isPart_append_iff
    (hFirst : Text.Balanced s)
    (hSecond : Text.Balanced t)
    (hSeam : s ≠ [] → Text.Seam s t) :
    IsPart (s ++ t) ↔ IsPart s ∧ IsPart t := by
  have hOr :=
    Text.isFree_append_iff isLetters_or hFirst hSecond hSeam
  have hAnd :=
    Text.isFree_append_iff isLetters_and hFirst hSecond hSeam
  constructor
  · intro hPart
    rcases hOr.mp hPart.free_or with ⟨hOrFirst, hOrSecond⟩
    rcases hAnd.mp hPart.free_and with ⟨hAndFirst, hAndSecond⟩
    exact
      ⟨⟨hFirst, hOrFirst, hAndFirst⟩,
        ⟨hSecond, hOrSecond, hAndSecond⟩⟩
  · rintro ⟨hPart, hPart'⟩
    exact
      ⟨Text.balanced_append hFirst hSecond,
        hOr.mpr ⟨hPart.free_or, hPart'.free_or⟩,
        hAnd.mpr ⟨hPart.free_and, hPart'.free_and⟩⟩

/- A blank in front makes no difference. -/
theorem isPart_cons_blank_iff
    (hBalanced : Text.Balanced t) :
    IsPart (' ' :: t) ↔ IsPart t := by
  have hBlank : Text.IsBlank [' '] := by decide
  have hSeam : Text.Seam [' '] t := Or.inr (Or.inr (by decide))
  have hIff :=
    isPart_append_iff (Text.balanced_of_isBlank hBlank) hBalanced
      fun _ => hSeam
  have hPart : IsPart [' '] := by
    refine ⟨Text.balanced_of_isBlank hBlank, ?_, ?_⟩
    · exact Text.isFree_of_isBlank (by simpa using isLetters_or) hBlank
    · exact Text.isFree_of_isBlank (by simpa using isLetters_and) hBlank
  rw [List.singleton_append] at hIff
  rw [hIff]
  exact and_iff_right hPart

theorem isPart_of_no_letter
    (hBalanced : Text.Balanced t)
    (hText : ∀ c ∈ t, c.isAlpha = false) :
    IsPart t :=
  ⟨hBalanced,
    Text.isFree_of_no_letter (by simpa using isLetters_or)
      hBalanced hText,
    Text.isFree_of_no_letter (by simpa using isLetters_and)
      hBalanced hText⟩

/- A word is a part unless it spells a keyword. -/
theorem isPart_of_word
    (hNames : ∀ c ∈ t, isNameChar c = true)
    (hOr : ¬ Text.SameWord t "OR".toList)
    (hAnd : ¬ Text.SameWord t "AND".toList) :
    IsPart t := by
  refine ⟨?_, ?_, ?_⟩
  · exact
      Text.balanced_of_plain fun c hMem =>
        not_isDelimiter_of_isNameChar (hNames c hMem)
  · exact
      Text.isFree_of_word (by simpa using isLetters_or) hNames
        (Text.not_spells_of_word hNames (by simpa using hOr))
  · exact
      Text.isFree_of_word (by simpa using isLetters_and) hNames
        (Text.not_spells_of_word hNames (by simpa using hAnd))

/- A keyword is no part. -/
theorem not_isFree_of_sameWord
    {word : Text}
    (hWord : Text.IsLetters word)
    (hSame : Text.SameWord t word) :
    ¬ Text.IsFree [word] t := by
  intro hFree
  have hCut :=
    Text.cutOf_spelled (by simpa using hWord)
      (Text.spells_singleton hSame) Text.balanced_nil rfl
  rw [List.append_nil, hFree] at hCut
  exact absurd (congrArg Cut.tail hCut) (by simp [Cut.occurrence])

end Condition

------------------------------------------------------------
-- Names
------------------------------------------------------------

namespace Name

/- The name is none of the words, in any letter case. -/
def Avoids
    (words : List Text)
    (name : Text) : Prop :=
  ∀ word ∈ words, ¬ Text.SameWord name word

instance
    (words : List Text)
    (name : Text) :
    Decidable (Avoids words name) := by
  unfold Avoids
  infer_instance

theorem avoids_append
    {words words' : List Text}
    {name : Text} :
    Avoids (words ++ words') name ↔
      Avoids words name ∧ Avoids words' name :=
  List.forall_mem_append

theorem avoids_pair
    {first second name : Text} :
    Avoids [first, second] name ↔
      ¬ Text.SameWord name first ∧ ¬ Text.SameWord name second := by
  rw [Avoids, List.forall_mem_cons, List.forall_mem_singleton]

/- A word of letters is a plain name. -/
theorem isPlainName_of_sameWord
    {name word : Text}
    (hWord : Text.IsLetters word)
    (hSame : Text.SameWord name word) :
    Text.IsPlainName name := by
  have hLetters := Text.isLetters_of_sameWord hSame hWord
  cases name with
  | nil => exact absurd rfl hLetters.1
  | cons c name =>
      have hAlpha := Text.isAlpha_of_mem hLetters List.mem_cons_self
      refine ⟨?_, ?_⟩
      · exact isNameStart_of_isAlpha hAlpha
      · rw [List.all_eq_true]
        exact Text.isNameChar_of_isLetters hLetters

/- A name that spells a keyword is written as it is. -/
theorem written_of_sameWord
    {name word : Text}
    (hWord : Text.IsLetters word)
    (hSame : Text.SameWord name word) :
    written name = name :=
  if_pos (isPlainName_of_sameWord hWord hSame)

/-
  A name in writing is a part unless it spells the keyword
  between two conditions.
-/
theorem isPart_written_iff
    {name : Text} :
    Condition.IsPart (written name) ↔
      Avoids ["AND".toList, "OR".toList] name := by
  constructor
  · intro hPart word hMem hSame
    rcases List.mem_pair.mp hMem with rfl | rfl
    · rw [written_of_sameWord Condition.isLetters_and hSame] at hPart
      exact
        Condition.not_isFree_of_sameWord Condition.isLetters_and
          hSame hPart.free_and
    · rw [written_of_sameWord Condition.isLetters_or hSame] at hPart
      exact
        Condition.not_isFree_of_sameWord Condition.isLetters_or
          hSame hPart.free_or
  · intro hAvoids
    rcases avoids_pair.mp hAvoids with ⟨hAnd, hOr⟩
    rcases written_cases name with ⟨hPlain, hText⟩ | ⟨-, hText⟩
    · rw [hText]
      exact
        Condition.isPart_of_word
          (fun c hMem => isNameChar_of_mem hPlain hMem) hOr hAnd
    · rw [hText]
      exact
        Condition.isPart_of_hidden
          (Text.balanced_quoted (by decide) name)
          (Text.hidden_quoted (by decide) name)

end Name

------------------------------------------------------------
-- Strings and Literals
------------------------------------------------------------

theorem Quoted.isPart_quote
    (value : Text) :
    Condition.IsPart (quote value) :=
  Condition.isPart_of_hidden
    (Text.balanced_quoted (by decide) value)
    (Text.hidden_quoted (by decide) value)

namespace Literal

theorem IsNumberText.isPart
    {t : Text}
    (hNumber : IsNumberText t) :
    Condition.IsPart t := by
  apply Condition.isPart_of_no_letter
  · exact
      Text.balanced_of_plain fun c hMem =>
        (of_isNumberChar (hNumber.chars c hMem)).2.2
  · intro c hMem
    exact (of_isNumberChar (hNumber.chars c hMem)).2.1

theorem closing_not_mem_slashed
    (t : Timestamp) :
    ']' ∉ t.slashed := by
  intro hMem
  have hAll := Timestamp.all_isMomentChar_slashed t
  have hChar := List.all_eq_true.mp hAll _ hMem
  exact absurd hChar (by decide)

/-
  What holds of literals in writing that a condition needs: a
  text without blanks around it, which is a part of its own.
-/
structure IsOperand
    (t : Text) : Prop where
  some : t ≠ []
  trimmed : Text.IsTrimmed t
  part : Condition.IsPart t

theorem IsNumberText.isOperand
    {t : Text}
    (hNumber : IsNumberText t) :
    IsOperand t :=
  ⟨hNumber.some,
    Text.isTrimmed_of_forall fun c hMem =>
      (of_isNumberChar (hNumber.chars c hMem)).1,
    hNumber.isPart⟩

theorem isOperand_quote
    (value : Text) :
    IsOperand (Quoted.quote value) :=
  ⟨List.cons_ne_nil _ _,
    Text.isTrimmed_surround _ (by decide) (by decide),
    Quoted.isPart_quote value⟩

theorem isOperand_boolean
    (value : Bool) :
    IsOperand (Literal.boolean value).written := by
  have hWord
      (word : Text)
      (hLetters : Text.IsLetters word)
      (hOr : ¬ Text.SameWord word "OR".toList)
      (hAnd : ¬ Text.SameWord word "AND".toList) :
      IsOperand word := by
    refine ⟨hLetters.1, ?_, ?_⟩
    · exact
        Text.isTrimmed_of_forall fun c hMem =>
          isBlank_eq_false_of_isAlpha
            (Text.isAlpha_of_mem hLetters hMem)
    · exact
        Condition.isPart_of_word
          (Text.isNameChar_of_isLetters hLetters) hOr hAnd
  cases value with
  | true =>
      exact
        hWord "TRUE".toList (by decide) (by decide) (by decide)
  | false =>
      exact
        hWord "FALSE".toList (by decide) (by decide) (by decide)

theorem isOperand_date
    (t : Timestamp) :
    IsOperand (Literal.date t).written := by
  have hInside :=
    Text.run_inside 0 (closing_not_mem_slashed t)
  have hHidden :=
    Text.hidden_marking_inside 0 (closing_not_mem_slashed t)
  refine ⟨List.cons_ne_nil _ _, ?_, ?_⟩
  · exact Text.isTrimmed_surround _ (by decide) (by decide)
  · exact
      Condition.isPart_of_hidden
        (Text.balanced_section (by decide) hInside)
        (Text.hidden_section (by decide) hInside hHidden)

/- A literal that was read is written as one part. -/
theorem isOperand_written
    {v : Literal}
    (hRead : IsRead v) :
    IsOperand v.written := by
  cases v with
  | string value => exact isOperand_quote value
  | integer n => exact (isNumberText_digits _ _).isOperand
  | number x =>
      rcases exists_body_of_isRead_number hRead
        with ⟨n, hText, hSpelled, -⟩
      rw [written, hText]
      exact (isNumberText_body hSpelled).isOperand
  | bigNumber d =>
      rw [written]
      by_cases hPlaces : d.scale = 0
      · rw [Decimal.text, hPlaces, Numeral.positional_zero]
        exact (isNumberText_digits _ _).isOperand
      · rcases exists_body_of_decimal hPlaces
          with ⟨n, hText, hSpelled, -⟩
        rw [hText]
        exact (isNumberText_body hSpelled).isOperand
  | boolean value => exact isOperand_boolean value
  | date t => exact isOperand_date t

end Literal

end SqlSelect
