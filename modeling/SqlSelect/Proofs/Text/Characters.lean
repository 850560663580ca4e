import SqlSelect.Cursor.Basic

/-
  The kinds of characters and how they exclude each other.
  Delimiters, blanks, comparison symbols and the characters of
  names are four classes without a common member, and a digit
  belongs to a name but cannot begin one.

  Main statements:
    * `isDelimiter_iff`
    * `not_isDelimiter_of_isBlank`
    * `not_isDelimiter_of_isNameChar`
    * `isBlank_eq_false_of_isNameChar`
    * `isSymbol_eq_false_of_isNameChar`
-/

namespace SqlSelect

------------------------------------------------------------
-- Delimiters
------------------------------------------------------------

/- The six characters that open or close something. -/
theorem isDelimiter_iff
    {c : Char} :
    IsDelimiter c ↔
      c = '\'' ∨ c = '"' ∨ c = '\x60' ∨ c = '[' ∨
        c = '(' ∨ c = ')' := by
  unfold IsDelimiter closerOf?
  by_cases hQuote : c = '\'' ∨ c = '"' ∨ c = '\x60'
  · simp only [if_pos hQuote, Option.isSome_some, true_or,
      true_iff]
    rcases hQuote with h | h | h
    · exact Or.inl h
    · exact Or.inr (Or.inl h)
    · exact Or.inr (Or.inr (Or.inl h))
  · by_cases hBracket : c = '['
    · simp [hBracket]
    · simp only [if_neg hQuote, if_neg hBracket]
      simp only [not_or] at hQuote
      simp [hQuote, hBracket]

/-
  A class of characters that has none of the six has no
  delimiter.
-/
theorem not_isDelimiter_of_class
    {p : Char → Bool}
    {c : Char}
    (hClass : p c = true)
    (hNone :
      ['\'', '"', '\x60', '[', '(', ')'].all
        (fun d => !p d) = true) :
    ¬ IsDelimiter c := by
  intro hDelimiter
  rw [isDelimiter_iff] at hDelimiter
  simp only [List.all_cons, List.all_nil, Bool.and_true,
    Bool.and_eq_true, Bool.not_eq_true'] at hNone
  rcases hDelimiter with h | h | h | h | h | h <;>
    · subst h
      simp [hClass] at hNone

/- Outside of sections only delimiters change the nesting. -/
theorem not_isDelimiter_iff
    {c : Char} :
    ¬ IsDelimiter c ↔
      closerOf? c = none ∧ c ≠ '(' ∧ c ≠ ')' := by
  rw [IsDelimiter, not_or, not_or, Bool.not_eq_true,
    Option.isSome_eq_false_iff, Option.isNone_iff_eq_none]

------------------------------------------------------------
-- Blanks
------------------------------------------------------------

/- The code points in some closed ranges, one by one. -/
def codePoints
    (ranges : List (Nat × Nat)) : List Nat :=
  ranges.flatMap fun (first, last) =>
    List.range' first (last + 1 - first)

/-
  What holds of the code points in some ranges holds of the
  characters whose code point lies in one of them.
-/
theorem of_codePoints
    (ranges : List (Nat × Nat))
    {p : Char → Bool}
    {c : Char}
    (hAll :
      (codePoints ranges).all
        (fun n => p (Char.ofNat n)) = true)
    (hRange :
      (ranges.any fun (first, last) =>
        first ≤ c.toNat && c.toNat ≤ last) = true) :
    p c = true := by
  rw [List.any_eq_true] at hRange
  rcases hRange with ⟨⟨first, last⟩, hMem, hBounds⟩
  simp only [Bool.and_eq_true, decide_eq_true_eq] at hBounds
  have hPoint : c.toNat ∈ codePoints ranges := by
    refine List.mem_flatMap.mpr ⟨(first, last), hMem, ?_⟩
    exact List.mem_range'_1.mpr ⟨hBounds.1, by omega⟩
  have hHolds := List.all_eq_true.mp hAll c.toNat hPoint
  simpa using hHolds

theorem not_isDelimiter_of_isBlank
    {c : Char}
    (hBlank : isBlank c = true) :
    ¬ IsDelimiter c :=
  not_isDelimiter_of_class hBlank (by decide)

theorem isNameChar_eq_false_of_isBlank
    {c : Char}
    (hBlank : isBlank c = true) :
    isNameChar c = false := by
  have hNot : (!isNameChar c) = true :=
    of_codePoints blankRanges (p := fun c => !isNameChar c)
      (by decide +kernel) hBlank
  simpa using hNot

------------------------------------------------------------
-- Names
------------------------------------------------------------

theorem not_isDelimiter_of_isNameChar
    {c : Char}
    (hName : isNameChar c = true) :
    ¬ IsDelimiter c :=
  not_isDelimiter_of_class hName (by decide +kernel)

theorem isBlank_eq_false_of_isNameChar
    {c : Char}
    (hName : isNameChar c = true) :
    isBlank c = false := by
  cases hBlank : isBlank c with
  | false => rfl
  | true =>
      rw [isNameChar_eq_false_of_isBlank hBlank] at hName
      exact absurd hName (by decide)

theorem isSymbol_eq_false_of_isNameChar
    {c : Char}
    (hName : isNameChar c = true) :
    Cursor.isSymbol c = false := by
  cases hSymbol : Cursor.isSymbol c with
  | false => rfl
  | true =>
      simp only [Cursor.isSymbol, Bool.or_eq_true,
        beq_iff_eq] at hSymbol
      have hNone :
          ['=', '<', '>', '!'].all
            (fun d => !isNameChar d) = true := by
        decide +kernel
      simp only [List.all_cons, List.all_nil, Bool.and_true,
        Bool.and_eq_true, Bool.not_eq_true'] at hNone
      rcases hSymbol with ((h | h) | h) | h <;>
        · subst h
          simp [hName] at hNone

theorem isNameChar_of_isNameStart
    {c : Char}
    (hStart : isNameStart c = true) :
    isNameChar c = true := by
  simp only [isNameStart, Bool.or_eq_true] at hStart
  simp only [isNameChar, Bool.or_eq_true]
  rcases hStart with h | h
  · exact Or.inl (Or.inl h)
  · exact Or.inr h

------------------------------------------------------------
-- Symbols
------------------------------------------------------------

theorem not_isDelimiter_of_isSymbol
    {c : Char}
    (hSymbol : Cursor.isSymbol c = true) :
    ¬ IsDelimiter c :=
  not_isDelimiter_of_class hSymbol (by decide)

------------------------------------------------------------
-- Digits
------------------------------------------------------------

/- The decimal digits, as one closed range. -/
theorem of_isDigit
    {p : Char → Bool}
    {c : Char}
    (hDigit : c.isDigit = true)
    (hAll :
      (codePoints [(48, 57)]).all
        (fun n => p (Char.ofNat n)) = true) :
    p c = true := by
  refine of_codePoints [(48, 57)] hAll ?_
  simp only [Char.isDigit, Bool.and_eq_true,
    decide_eq_true_eq, ge_iff_le, UInt32.le_iff_toNat_le]
    at hDigit
  simpa using hDigit

theorem isNameStart_eq_false_of_isDigit
    {c : Char}
    (hDigit : c.isDigit = true) :
    isNameStart c = false := by
  have hNot : (!isNameStart c) = true :=
    of_isDigit (p := fun c => !isNameStart c) hDigit
      (by decide +kernel)
  simpa using hNot

theorem isNameChar_of_isDigit
    {c : Char}
    (hDigit : c.isDigit = true) :
    isNameChar c = true :=
  of_isDigit hDigit (by decide +kernel)

------------------------------------------------------------
-- Letters of Keywords
------------------------------------------------------------

/- Letter case does not tell letters from other characters. -/
theorem isAlpha_toLower
    (c : Char) :
    c.toLower.isAlpha = c.isAlpha := by
  unfold Char.toLower
  split
  · rename_i hUpper
    unfold Char.isAlpha Char.isUpper Char.isLower
    simp only [ge_iff_le, UInt32.le_iff_toNat_le] at hUpper ⊢
    simp at hUpper ⊢
    grind
  · rfl

theorem isNameStart_of_isAlpha
    {c : Char}
    (hAlpha : c.isAlpha = true) :
    isNameStart c = true := by
  refine
    of_codePoints [(65, 90), (97, 122)]
      (by decide +kernel) ?_
  unfold Char.isAlpha Char.isUpper Char.isLower at hAlpha
  simp only [Bool.or_eq_true, Bool.and_eq_true, decide_eq_true_eq,
    ge_iff_le, UInt32.le_iff_toNat_le] at hAlpha
  simpa using hAlpha

theorem isNameChar_of_isAlpha
    {c : Char}
    (hAlpha : c.isAlpha = true) :
    isNameChar c = true :=
  isNameChar_of_isNameStart (isNameStart_of_isAlpha hAlpha)

theorem isBlank_eq_false_of_isAlpha
    {c : Char}
    (hAlpha : c.isAlpha = true) :
    isBlank c = false :=
  isBlank_eq_false_of_isNameChar (isNameChar_of_isAlpha hAlpha)

theorem isAlpha_eq_false_of_isBlank
    {c : Char}
    (hBlank : isBlank c = true) :
    c.isAlpha = false := by
  cases hAlpha : c.isAlpha with
  | false => rfl
  | true =>
      rw [isBlank_eq_false_of_isAlpha hAlpha] at hBlank
      exact absurd hBlank (by decide)

end SqlSelect
