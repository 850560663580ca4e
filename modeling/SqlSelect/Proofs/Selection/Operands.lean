import SqlSelect.Proofs.Condition.Rows

/-
  The left operand of a comparison. An operand in front of a
  comparison is looked up as it stands there, and a text that
  is a single comparison is read as the condition of what it
  compares.

  Main statements:
    * `Predicate.IsLeft`
    * `Predicate.IsLeft.ofText_append`
    * `Condition.ofText_eq_ok_iff_of_part`
    * `Condition.ofText_comparison_iff`
-/

namespace SqlSelect

namespace Cursor

/- The characters at which an operand ends. -/
def endsOperand
    (c : Char) : Bool :=
  isBlank c || isSymbol c

/- A word is the run of its characters in front. -/
theorem word_eq
    (s : Cursor) :
    s.word =
      (s.rest.takeWhile isNameChar,
        { s with rest := s.rest.dropWhile isNameChar }) := by
  apply word_of_append
  · exact List.takeWhile_append_dropWhile.symm
  · exact fun c hMem => List.mem_takeWhile_imp hMem
  · cases hRest : s.rest.dropWhile isNameChar with
    | nil => rfl
    | cons c t =>
        have hHead := List.head?_dropWhile_not isNameChar s.rest
        simpa [hRest] using hHead

end Cursor

/- An operand ends at a blank. -/
theorem Stop.halts_of_blank
    {t : Text}
    (hBlank : t.head?.any isBlank = true) :
    Halts Cursor.endsOperand t := by
  cases t with
  | nil => exact Or.inl rfl
  | cons c t =>
      have hFirst : isBlank c = true := by simpa using hBlank
      exact
        Or.inr
          ⟨c, t, rfl, not_isDelimiter_of_isBlank hFirst,
            by simp [Cursor.endsOperand, hFirst]⟩

------------------------------------------------------------
-- Predicates
------------------------------------------------------------

namespace Predicate

/-
  The text is taken whole as the operand on the left: it has
  no blank and no comparison symbol at the top level.
-/
structure IsLeft
    (t : Text) : Prop where
  some : t ≠ []
  balanced : Text.Balanced t
  passes : Nesting.outside.Passes Cursor.endsOperand t

/- A section or group is an operand. -/
theorem isLeft_of_hidden
    {t : Text}
    (hSome : t ≠ [])
    (hBalanced : Text.Balanced t)
    (hHidden : Nesting.Hidden (Text.marking t)) :
    IsLeft t :=
  ⟨hSome, hBalanced, Nesting.passes_of_hidden hHidden⟩

variable {env : Environment}
variable {s t : Text}

/- An operand begins with no blank. -/
theorem IsLeft.trimStart_append
    (hLeft : IsLeft s)
    (t : Text) :
    Text.trimStart (s ++ t) = s ++ t := by
  cases s with
  | nil => exact absurd rfl hLeft.some
  | cons c s =>
      rcases Nesting.exists_step_of_run hLeft.balanced
        with ⟨next, hStep, -⟩
      have hFirst := ((Nesting.passes_cons hStep).mp hLeft.passes).1
      apply Text.trimStart_of_head
      by_contra hBlank
      have hBlank' : isBlank c = true := by simpa using hBlank
      have hTop : Nesting.outside.IsTop c :=
        ⟨rfl, not_isDelimiter_of_isBlank hBlank'⟩
      simp [Cursor.endsOperand, hBlank', hTop] at hFirst

/- The operand is read up to what ends it. -/
theorem IsLeft.operand_append
    (hLeft : IsLeft s)
    (hHalts : Stop.Halts Cursor.endsOperand t) :
    (Cursor.ofText (s ++ t)).operand =
      (.ok s, ⟨s ++ t, t, 0⟩) :=
  Cursor.operand_eq (hLeft.trimStart_append t) hLeft.balanced
    hLeft.passes hHalts

/- A text that begins with another word is no parameter. -/
theorem parameterStart?_eq_none
    (hOther :
      ¬ Text.SameWord (t.takeWhile isNameChar) "PARAMETER".toList) :
    parameterStart? t = none := by
  rw [parameterStart?, Cursor.word_eq]
  exact if_neg fun hBoth => hOther hBoth.1

/-
  What is read of an operand and what follows it: the operand
  is looked up, and the rest is read as a comparison.
-/
theorem IsLeft.ofText_append
    (hLeft : IsLeft s)
    (hHalts : Stop.Halts Cursor.endsOperand t)
    (hOther :
      ¬ Text.SameWord ((s ++ t).takeWhile isNameChar)
        "PARAMETER".toList) :
    ofText env (s ++ t) =
      env.fieldName s >>= fun left =>
        readComparison env (s ++ t) left
          ⟨s ++ t, Text.trimStart t, 0⟩ := by
  have hSome : s ++ t ≠ [] :=
    List.append_ne_nil_of_left_ne_nil hLeft.some t
  rw [ofText, if_neg hSome, parameterStart?_eq_none hOther]
  simp only [hLeft.operand_append hHalts]
  exact if_neg hLeft.some

end Predicate

------------------------------------------------------------
-- Conditions
------------------------------------------------------------

namespace Condition

variable {env : Environment}
variable {t : Text}
variable {c : Condition}

/- A text that is a single part is read as this part. -/
theorem ofText_eq_ok_iff_of_part
    (hPart : IsPart t)
    (hText : ¬ Text.IsBlank t) :
    ofText env t = .ok c ↔
      readPart env (within env depthLimit) t = .ok c := by
  constructor
  · intro hRead
    rw [ofText, if_neg hText, readNested_eq_ok_iff_rows] at hRead
    rcases hRead with ⟨rows, hRows, rfl⟩
    have hReads := hRows.reads
    rw [layout_of_isPart hPart, ReadsAs,
      List.forall₂_cons_left_iff] at hReads
    rcases hReads with ⟨row, rest, hRow, hRest, rfl⟩
    rw [List.forall₂_nil_left_iff] at hRest
    rw [RowReadsAs, List.forall₂_cons_left_iff] at hRow
    rcases hRow with ⟨u, more, hUnit, hMore, rfl⟩
    rw [List.forall₂_nil_left_iff] at hMore
    subst hRest hMore
    rw [readPart_trim] at hUnit
    exact hUnit
  · intro hRead
    exact (readsRows_of_isPart hPart hRead).ofText_eq

/-
  A part that begins with neither NOT nor a parenthesis is
  read as a predicate.
-/
theorem ofText_comparison_iff
    (hPart : IsPart t)
    (hText : ¬ Text.IsBlank t)
    (hBare : bare t = (false, Text.trim t))
    (hOpen : (Text.trim t).head? ≠ some '(') :
    ofText env t = .ok c ↔
      ∃ p,
        Predicate.ofText env (Text.trim t) = .ok p ∧
          c = .atom false .first p := by
  have hEnclosed : Text.enclosed? (Text.trim t) = .ok none := by
    rw [Text.enclosed?, if_neg hOpen]
  rw [ofText_eq_ok_iff_of_part hPart hText, readPart_eq_ok_iff, hBare]
  simp [hText, hEnclosed]

end Condition

end SqlSelect
