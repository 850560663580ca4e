import SqlSelect.Item.Reading
import SqlSelect.Proofs.Balance.Conditions

/-
  The balance of a list of items is checked once, when it is
  cut at its commas. Directions, aliases, functions and
  choices are read from balanced parts of it.

  Main statements:
    * `Item.exists_cutDirection`
    * `Item.exists_cutAlias`
    * `Item.faultless_readExpression`
    * `Item.faultless_readItem`
    * `ItemList.exists_ofText_unbalanced_iff`
-/

namespace SqlSelect

namespace Item

variable {env : Environment}
variable {expression : Text}

------------------------------------------------------------
-- Directions and Aliases
------------------------------------------------------------

/- What is left without a direction is balanced. -/
theorem exists_cutDirection
    {t : Text}
    (hBalanced : Text.Balanced t) :
    ∃ found,
      cutDirection t = .ok found ∧ Text.Balanced found.1 := by
  unfold cutDirection
  rw [Words.topWords_eq hBalanced]
  refine ⟨_, rfl, ?_⟩
  simp only
  split
  · split
    · exact Words.balanced_through hBalanced _
    · exact hBalanced
  · exact hBalanced

theorem balanced_cutLastAlias
    {t : Text}
    (hBalanced : Text.Balanced t)
    (reversed : List Text) :
    Text.Balanced
      (cutLastAlias t (Words.ofMarks (Text.marking t))
        reversed).1 := by
  unfold cutLastAlias
  split
  · split
    · exact Words.balanced_through hBalanced _
    · exact hBalanced
  · exact hBalanced

/- What is left without an alias is balanced. -/
theorem exists_cutAlias
    {t : Text}
    (hBalanced : Text.Balanced t) :
    ∃ found,
      cutAlias t = .ok found ∧ Text.Balanced found.1 := by
  unfold cutAlias
  rw [Words.topWords_eq hBalanced]
  refine ⟨_, rfl, ?_⟩
  simp only
  split
  · split
    · exact Words.balanced_through hBalanced _
    · exact balanced_cutLastAlias hBalanced _
  · exact balanced_cutLastAlias hBalanced _

theorem faultless_star?
    (hBalanced : Text.Balanced expression) :
    Faultless (star? expression) := by
  unfold star?
  split
  · exact Faultless.ok _
  · split
    · exact (Name.faultless_qualified hBalanced).map
    · exact Faultless.ok _

------------------------------------------------------------
-- Choices
------------------------------------------------------------

theorem faultless_readBranch
    (t : Text) :
    Faultless (readBranch t) := by
  unfold readBranch
  simp only
  split
  · exact Faultless.ok _
  · exact Faultless.error fun _ h => absurd h (by simp)

theorem faultless_readTest
    {conditionText : Text}
    (hBalanced : Text.Balanced conditionText) :
    Faultless (readTest env expression conditionText) := by
  apply Faultless.bind
  · intro u hFault
    exact (Condition.ofText_eq_unbalanced_iff.mp hFault).1
      hBalanced
  · intro condition _
    split
    · exact Faultless.malformed _
    · exact Faultless.ok _

theorem faultless_readChoice
    {condition whenTrue whenFalse : Text}
    (hBalanced : Text.Balanced condition) :
    Faultless
      (readChoice env expression condition whenTrue
        whenFalse) := by
  apply Faultless.bind
    (faultless_readTest (Text.balanced_trim_iff.mpr hBalanced))
  intro test _
  apply Faultless.bind (faultless_readBranch whenTrue)
  intro trueValue _
  apply Faultless.bind (faultless_readBranch whenFalse)
  intro falseValue _
  exact Faultless.ok _

theorem faultless_readConditional
    {arguments : Text}
    (hBalanced : Text.Balanced arguments) :
    Faultless (readConditional env expression arguments) := by
  rcases Text.exists_splitTop ',' hBalanced
    with ⟨parts, hSplit, hParts⟩
  unfold readConditional
  rw [hSplit]
  apply Faultless.bind (Faultless.ok _)
  intro found hFound
  rcases Except.ok.inj hFound with rfl
  split
  · exact faultless_readChoice (hParts _ List.mem_cons_self)
  · exact Faultless.malformed _

/- The words of the keywords of a case are words of letters. -/
theorem isLetters_of_mem_case
    {keyword : Text}
    (hMem :
      keyword ∈
        ["WHEN".toList, "THEN".toList, "ELSE".toList,
          "END".toList]) :
    ∀ w ∈ keyword.words, Text.IsLetters w := by
  simp only [List.mem_cons, List.not_mem_nil, or_false] at hMem
  rcases hMem with rfl | rfl | rfl | rfl <;> decide

/- A section that a case must have is there or missing. -/
theorem faultless_requireSection
    (opening closing : Text)
    (hOpening : ∀ w ∈ opening.words, Text.IsLetters w)
    (hClosing : ∀ w ∈ closing.words, Text.IsLetters w)
    (hBalanced : Text.Balanced expression) :
    Faultless (requireSection expression opening closing) ∧
      ∀ part,
        requireSection expression opening closing = .ok part →
          Text.Balanced part := by
  rcases
      Text.exists_section? opening [closing] hOpening
        (by simpa using hClosing) hBalanced
    with ⟨found, hSection, hFound⟩
  unfold requireSection
  rw [hSection]
  cases found with
  | none =>
      exact ⟨Faultless.malformed _,
        fun part h => absurd h (by simp [bind, Except.bind])⟩
  | some found =>
      refine ⟨Faultless.ok _, ?_⟩
      intro part hPart
      rcases Except.ok.inj hPart with rfl
      exact hFound found rfl

theorem faultless_requireEnd
    (hBalanced : Text.Balanced expression) :
    Faultless (requireEnd expression) := by
  unfold requireEnd
  rw [Text.cutAtKeyword_eq hBalanced]
  apply Faultless.bind (Faultless.ok _)
  intro cut _
  split
  · exact Faultless.malformed _
  · exact Faultless.ok _
  · exact Faultless.malformed _

theorem faultless_readCase
    (hBalanced : Text.Balanced expression) :
    Faultless (readCase env expression) := by
  have hCondition :=
    faultless_requireSection
      "WHEN".toList "THEN".toList
      (isLetters_of_mem_case (by simp))
      (isLetters_of_mem_case (by simp)) hBalanced
  have hTrue :=
    faultless_requireSection
      "THEN".toList "ELSE".toList
      (isLetters_of_mem_case (by simp))
      (isLetters_of_mem_case (by simp)) hBalanced
  have hFalse :=
    faultless_requireSection
      "ELSE".toList "END".toList
      (isLetters_of_mem_case (by simp))
      (isLetters_of_mem_case (by simp)) hBalanced
  apply Faultless.bind (faultless_requireEnd hBalanced)
  intro _ _
  apply Faultless.bind hCondition.1
  intro condition hFound
  apply Faultless.bind hTrue.1
  intro whenTrue _
  apply Faultless.bind hFalse.1
  intro whenFalse _
  exact faultless_readChoice (hCondition.2 condition hFound)

------------------------------------------------------------
-- Expressions
------------------------------------------------------------

theorem faultless_readCall
    {name arguments : Text}
    (hBalanced : Text.Balanced arguments) :
    Faultless (readCall env expression name arguments) := by
  unfold readCall
  split
  · exact (faultless_readAggregate hBalanced).map
  · split
    · exact faultless_readConditional hBalanced
    · exact Faultless.malformed _

theorem faultless_readField
    (hBalanced : Text.Balanced expression) :
    Faultless (readField env expression) := by
  apply Faultless.bind
    (Environment.faultless_selectedField? hBalanced)
  intro field _
  cases field with
  | some item => exact Faultless.ok item
  | none => exact (Environment.faultless_tableField hBalanced).map

theorem faultless_readExpression
    (hBalanced : Text.Balanced expression) :
    Faultless (readExpression env expression) := by
  rcases Text.exists_call? hBalanced
    with ⟨found, hCall, hArguments⟩
  unfold readExpression
  rw [hCall]
  apply Faultless.bind (Faultless.ok _)
  intro call hFound
  rcases Except.ok.inj hFound with rfl
  split
  · rename_i name arguments
    exact faultless_readCall (hArguments (name, arguments) rfl)
  · split
    · exact faultless_readCase hBalanced
    · split
      · exact Faultless.ok _
      · exact faultless_readField hBalanced

theorem faultless_readAliased
    {aliasName : Option Text}
    (hBalanced : Text.Balanced expression) :
    Faultless (readAliased env expression aliasName) := by
  apply Faultless.bind (faultless_star? hBalanced)
  intro star _
  cases star with
  | some qualifier =>
      simp only
      split
      · exact Faultless.malformed _
      · exact Faultless.ok _
  | none =>
      simp only
      split
      · exact Faultless.ok _
      · exact (faultless_readExpression hBalanced).map

/- An item is read from a balanced text without such a fault. -/
theorem faultless_readItem
    {ordered : Bool}
    {t : Text}
    (hBalanced : Text.Balanced t) :
    Faultless (readItem env ordered t) := by
  have hItem := Text.balanced_trim_iff.mpr hBalanced
  unfold readItem
  simp only
  split
  · exact Faultless.malformed _
  · split
    · rcases exists_cutDirection hItem
        with ⟨body, hDirection, hBody⟩
      rw [hDirection]
      apply Faultless.bind (Faultless.ok _)
      intro cut hCut
      rcases Except.ok.inj hCut with rfl
      rcases exists_cutAlias hBody with ⟨rest, hAlias, hRest⟩
      rw [hAlias]
      apply Faultless.bind (Faultless.ok _)
      intro aliased hAliased
      rcases Except.ok.inj hAliased with rfl
      exact Faultless.bind (faultless_readAliased hRest)
        fun _ _ => Faultless.ok _
    · rcases exists_cutAlias hItem with ⟨rest, hAlias, hRest⟩
      rw [hAlias]
      apply Faultless.bind (Faultless.ok _)
      intro aliased hAliased
      rcases Except.ok.inj hAliased with rfl
      exact faultless_readAliased hRest

end Item

------------------------------------------------------------
-- Lists
------------------------------------------------------------

namespace ItemList

variable {env : Environment}
variable {ordered : Bool}
variable {t : Text}

theorem faultless_ofText
    (hBalanced : Text.Balanced t) :
    Faultless (ItemList.ofText env ordered t) := by
  have hRest :=
    Item.balanced_splitDistinct.mpr
      (Text.balanced_trim_iff.mpr hBalanced)
  rcases Text.exists_splitTop ',' hRest
    with ⟨parts, hSplit, hParts⟩
  unfold ItemList.ofText
  simp only
  split
  · exact Faultless.ok _
  · rw [hSplit]
    apply Faultless.bind (Faultless.ok _)
    intro pieces hPieces
    rcases Except.ok.inj hPieces with rfl
    apply Faultless.bind
    · apply Faultless.mapM
      exact fun piece hMem =>
        Item.faultless_readItem (hParts piece hMem)
    · exact fun _ _ => Faultless.ok _

/- A list has the fault exactly when it is not balanced. -/
theorem exists_ofText_unbalanced_iff :
    (∃ u, ItemList.ofText env ordered t = .error (.unbalanced u)) ↔
      ¬ Text.Balanced t := by
  constructor
  · rintro ⟨u, hFault⟩ hBalanced
    exact faultless_ofText hBalanced u hFault
  · intro hNot
    have hRest :
        ¬ Text.Balanced
          (Item.splitDistinct (Text.trim t)).2 := by
      rw [Item.balanced_splitDistinct, Text.balanced_trim_iff]
      exact hNot
    refine ⟨(Item.splitDistinct (Text.trim t)).2, ?_⟩
    unfold ItemList.ofText
    simp only
    rw [if_neg fun hBlank =>
        hRest (Text.balanced_of_isBlank hBlank),
      Text.splitTop, Text.marked_eq, if_neg hRest]
    rfl

end ItemList

end SqlSelect
