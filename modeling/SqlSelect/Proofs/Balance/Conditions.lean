import SqlSelect.Condition.Reading
import SqlSelect.Proofs.Balance.References
import SqlSelect.Proofs.Condition.Layout

/-
  The balance of a condition is checked once, for the whole
  text. Everything in it is read from balanced parts, and no
  part is found at fault again.

  Main statements:
    * `Predicate.faultless_ofText`
    * `Condition.balanced_stripNots`
    * `Condition.faultless_readPart`
    * `Condition.faultless_readNested`
    * `Condition.ofText_eq_unbalanced_iff`
-/

namespace SqlSelect

------------------------------------------------------------
-- Predicates
------------------------------------------------------------

namespace Predicate

variable {env : Environment}
variable {predicate left : Text}
variable {comparison : Comparison}
variable {s : Cursor}

theorem faultless_parameterValue
    (t : Text) :
    Faultless (parameterValue t) := by
  unfold parameterValue
  simp only
  split
  · exact Faultless.error fun _ h => absurd h (by simp)
  · exact Faultless.ok _

theorem faultless_parameterName
    (t : Text) :
    Faultless (parameterName t) := by
  unfold parameterName
  simp only
  split
  · exact Faultless.error fun _ h => absurd h (by simp)
  · exact Faultless.ok _

theorem faultless_skipParameterSign :
    Faultless (skipParameterSign predicate s) := by
  unfold skipParameterSign
  split
  · exact Faultless.malformed _
  · split
    · exact Faultless.ok _
    · exact Faultless.error fun _ h => absurd h (by simp)

theorem faultless_readParameter
    (hNext : s.next? = some '(')
    (hBalanced : Text.Balanced s.rest) :
    Faultless (readParameter predicate s) := by
  rcases Cursor.exists_group hNext hBalanced
    with ⟨interior, t, hGroup, -, -⟩
  unfold readParameter
  rw [hGroup]
  apply Faultless.bind (Faultless.ok _)
  intro found _
  apply Faultless.bind (faultless_parameterName _)
  intro name _
  apply Faultless.bind faultless_skipParameterSign
  intro after _
  apply Faultless.bind (faultless_parameterValue _)
  intro value _
  exact Faultless.ok _

theorem faultless_nothingAfter :
    Faultless (nothingAfter predicate s) := by
  unfold nothingAfter
  simp only
  split
  · exact Faultless.ok _
  · exact Faultless.malformed _

theorem faultless_readNullTest :
    Faultless (readNullTest predicate left s) := by
  unfold readNullTest
  simp only
  split
  · exact Faultless.error fun _ h => absurd h (by simp)
  · exact faultless_nothingAfter.map

theorem faultless_listValues
    {interior : Text}
    (hBalanced : Text.Balanced interior) :
    Faultless (listValues predicate interior) := by
  unfold listValues
  split
  · exact Faultless.malformed _
  · rcases Text.exists_splitTop ',' hBalanced
      with ⟨parts, hSplit, -⟩
    rw [hSplit]
    exact Faultless.ok _

theorem faultless_readList
    (hBalanced : Text.Balanced s.rest) :
    Faultless (readList predicate left s) := by
  have hStart := (Cursor.balanced_atChar (c := '(')).mpr hBalanced
  change Faultless
    (if (s.atChar '(').1 = false then _ else _)
  split
  · exact Faultless.malformed _
  · rename_i hOpens
    rw [Bool.not_eq_false] at hOpens
    rcases Cursor.exists_group (eq_of_beq hOpens) hStart
      with ⟨interior, t, hGroup, hInterior, -⟩
    rw [hGroup]
    apply Faultless.bind (Faultless.ok _)
    intro found hFound
    rcases Except.ok.inj hFound with rfl
    apply Faultless.bind faultless_nothingAfter
    intro _ _
    apply Faultless.bind (faultless_listValues hInterior)
    intro values _
    exact Faultless.ok _

theorem faultless_readRight
    {rest : Text}
    (hBalanced : Text.Balanced rest) :
    Faultless (readRight env predicate left comparison rest) := by
  have hTrim := Text.balanced_trim_iff.mpr hBalanced
  unfold readRight
  simp only
  split
  · exact Faultless.malformed _
  · split
    · exact Faultless.ok _
    · rw [Words.topWords_eq hTrim]
      apply Faultless.bind (Faultless.ok _)
      intro words _
      split
      · exact Faultless.malformed _
      · exact (Environment.faultless_fieldName hTrim).map

theorem faultless_readWordComparison
    (hBalanced : Text.Balanced s.rest) :
    Faultless (readWordComparison env predicate left s) := by
  have hRest := Cursor.balanced_word.mpr hBalanced
  unfold readWordComparison
  simp only
  split
  · exact faultless_readNullTest
  · split
    · exact faultless_readList hRest
    · split
      · split
        · exact Faultless.error fun _ h => absurd h (by simp)
        · exact Faultless.malformed _
      · split
        · exact Faultless.error fun _ h => absurd h (by simp)
        · exact faultless_readRight hRest

theorem faultless_readComparison
    (hBalanced : Text.Balanced s.rest) :
    Faultless (readComparison env predicate left s) := by
  have hRest := Cursor.balanced_symbol?.mpr hBalanced
  unfold readComparison
  split
  · rename_i after hSymbol
    rw [hSymbol] at hRest
    exact faultless_readWordComparison hRest
  · rename_i symbol after hSymbol
    rw [hSymbol] at hRest
    split
    · exact Faultless.error fun _ h => absurd h (by simp)
    · exact faultless_readRight hRest

/- A parameter begins in front of its parentheses. -/
theorem next?_of_parameterStart?
    {t : Text}
    (hStart : parameterStart? t = some s) :
    s.next? = some '(' ∧
      (Text.Balanced s.rest ↔ Text.Balanced t) := by
  have hUnfold :
      parameterStart? t =
        if Text.SameWord (Cursor.ofText t).word.1
              "PARAMETER".toList ∧
            ((Cursor.ofText t).word.2.atChar '(').1 = true then
          some ((Cursor.ofText t).word.2.atChar '(').2
        else none := rfl
  rw [hUnfold, Option.ite_none_right_eq_some] at hStart
  rcases hStart with ⟨⟨-, hOpens⟩, hSome⟩
  rw [← Option.some.inj hSome]
  refine ⟨eq_of_beq hOpens, ?_⟩
  rw [Cursor.balanced_atChar, Cursor.balanced_word]
  rfl

/- A balanced text is refused as a predicate for other causes. -/
theorem faultless_ofText
    {t : Text}
    (hBalanced : Text.Balanced t) :
    Faultless (Predicate.ofText env t) := by
  unfold Predicate.ofText
  split
  · exact Faultless.malformed _
  · split
    · rename_i start hStart
      rcases next?_of_parameterStart? hStart with ⟨hNext, hRest⟩
      exact faultless_readParameter hNext (hRest.mpr hBalanced)
    · rcases
          Cursor.exists_operand (s := Cursor.ofText t) hBalanced
        with ⟨word, rest, -, hWord, hRest, hOperand⟩
      rw [hOperand]
      apply Faultless.bind (Faultless.ok _)
      intro operand hFound
      rcases Except.ok.inj hFound with rfl
      split
      · exact Faultless.malformed _
      · apply Faultless.bind
          (Environment.faultless_fieldName hWord)
        intro name _
        exact faultless_readComparison
          (Cursor.balanced_skipBlanks.mpr hRest)

end Predicate

------------------------------------------------------------
-- Trees
------------------------------------------------------------

namespace Condition

variable {env : Environment}

/- Behind every NOT a text is as balanced as in front of it. -/
theorem balanced_afterNots
    (s : Cursor) :
    Text.Balanced (afterNots s).2.rest ↔
      Text.Balanced s.rest := by
  fun_induction afterNots s with
  | case1 s => rfl
  | case2 s after hAfter hLess negated rest hRest ih =>
      rw [hRest] at ih
      rw [ih, Cursor.balanced_afterKeyword? (by decide) hAfter]

theorem balanced_stripNots
    {t : Text} :
    Text.Balanced (stripNots t).2 ↔ Text.Balanced t :=
  balanced_afterNots (Cursor.ofText t)

/- What reads a text in parentheses finds no fault in it. -/
def FaultlessWithin
    (deeper? : Option (Text → Except Error Condition)) : Prop :=
  ∀ deeper, deeper? = some deeper →
    ∀ t, Text.Balanced t → Faultless (deeper t)

theorem faultless_readPart
    {deeper? : Option (Text → Except Error Condition)}
    {t : Text}
    (hDeeper : FaultlessWithin deeper?)
    (hBalanced : Text.Balanced t) :
    Faultless (readPart env deeper? t) := by
  have hPart := Text.balanced_trim_iff.mpr hBalanced
  have hBody :=
    Text.balanced_trim_iff.mpr (balanced_stripNots.mpr hPart)
  rcases Text.exists_enclosed? hBody
    with ⟨found, hEnclosed, hInterior⟩
  unfold readPart
  simp only
  split
  · exact Faultless.malformed _
  · rw [hEnclosed]
    apply Faultless.bind (Faultless.ok _)
    intro enclosed hFound
    rcases Except.ok.inj hFound with rfl
    cases found with
    | none => exact (Predicate.faultless_ofText hBody).map
    | some interior =>
        simp only
        split
        · exact Faultless.malformed _
        · split
          · exact Faultless.malformed _
          · rename_i deeper
            exact
              (hDeeper deeper rfl interior
                (hInterior interior rfl)).map

theorem faultless_readAnd
    {deeper? : Option (Text → Except Error Condition)}
    {t : Text}
    (hDeeper : FaultlessWithin deeper?)
    (hBalanced : Text.Balanced t) :
    Faultless (readAnd env deeper? t) := by
  unfold readAnd
  rw [Text.splitAtKeyword_eq hBalanced]
  apply Faultless.bind (Faultless.ok _)
  intro parts hParts
  rcases Except.ok.inj hParts with rfl
  apply Faultless.bind
  · apply Faultless.mapM
    intro part hMem
    exact faultless_readPart hDeeper
      (Text.balanced_of_mem_pieces (by decide) hBalanced hMem)
  · exact fun _ _ => Faultless.ok _

theorem faultless_readAll
    {deeper? : Option (Text → Except Error Condition)}
    {t : Text}
    (hDeeper : FaultlessWithin deeper?)
    (hBalanced : Text.Balanced t) :
    Faultless (readAll env deeper? t) := by
  unfold readAll
  rw [Text.splitAtKeyword_eq hBalanced]
  apply Faultless.bind (Faultless.ok _)
  intro segments hSegments
  rcases Except.ok.inj hSegments with rfl
  apply Faultless.bind
  · apply Faultless.mapM
    intro segment hMem
    exact faultless_readAnd hDeeper
      (Text.balanced_of_mem_pieces (by decide) hBalanced hMem)
  · exact fun _ _ => Faultless.ok _

/- By induction on the parentheses that may still be opened. -/
theorem faultless_readNested
    (allowance : Nat)
    {t : Text}
    (hBalanced : Text.Balanced t) :
    Faultless (readNested env allowance t) := by
  induction allowance generalizing t with
  | zero =>
      exact faultless_readAll
        (fun deeper h => absurd h (by simp)) hBalanced
  | succ allowance ih =>
      apply faultless_readAll _ hBalanced
      intro deeper hDeeper inner hInner
      rcases Option.some.inj hDeeper with rfl
      exact ih hInner

/- A condition has the fault exactly when it is not balanced. -/
theorem ofText_eq_unbalanced_iff
    {t u : Text} :
    ofText env t = .error (.unbalanced u) ↔
      ¬ Text.Balanced t ∧ u = t := by
  unfold ofText
  split
  · rename_i hBlank
    constructor
    · exact fun h => absurd h (by simp)
    · exact fun h =>
        absurd (Text.balanced_of_isBlank hBlank) h.1
  · by_cases hBalanced : Text.Balanced t
    · constructor
      · exact fun h =>
          absurd h (faultless_readNested depthLimit hBalanced u)
      · exact fun h => absurd hBalanced h.1
    · rw [readNested_of_not_balanced depthLimit hBalanced]
      simp [hBalanced, eq_comm]

end Condition

end SqlSelect
