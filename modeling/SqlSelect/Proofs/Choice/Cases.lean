import SqlSelect.Proofs.Choice.Sections
import SqlSelect.Proofs.Literal.Opacity
import SqlSelect.Proofs.Selection.Expressions

/-
  The texts that are read as a case. The sections of a case
  are found by four searches that know nothing of each other.
  As the values of a case are literals, which hold none of its
  keywords, the keywords stand in their order whenever a case
  is read, with nothing in front of the first and behind the
  last of them. Only what stands between CASE and WHEN is
  never looked at.

  Main statements:
    * `Choice.IsReadFrom`
    * `Item.IsCase`
    * `Item.HasSections.isCase`
    * `Item.readCase_eq_ok_iff`
    * `Item.exists_case_of_readExpression`
    * `Item.not_forall_case_of_readExpression`
-/

namespace SqlSelect

------------------------------------------------------------
-- Choices from Three Texts
------------------------------------------------------------

/- The choice is what the three texts are read as. -/
structure Choice.IsReadFrom
    (env : Environment)
    (condition whenTrue whenFalse : Text)
    (choice : Choice) : Prop where
  text : choice.conditionText = Text.trim condition
  condition :
    Condition.ofText env.tableOnly (Text.trim condition) =
      .ok choice.condition
  nonempty : choice.condition.isEmpty = false
  whenTrue :
    Literal.ofText? (Text.trim whenTrue) = some choice.whenTrue
  whenFalse :
    Literal.ofText? (Text.trim whenFalse) = some choice.whenFalse

namespace Item

variable {env : Environment}
variable {e condition whenTrue whenFalse : Text}
variable {item : Item}
variable {choice : Choice}

theorem readTest_eq_ok_iff
    {test : Condition} :
    readTest env e condition = .ok test ↔
      Condition.ofText env.tableOnly condition = .ok test ∧
        test.isEmpty = false := by
  rw [readTest, bind_eq_ok_iff]
  constructor
  · rintro ⟨test', hTest, hSome⟩
    split_ifs at hSome with hEmpty
    cases hSome
    exact ⟨hTest, Bool.not_eq_true _ ▸ hEmpty⟩
  · rintro ⟨hTest, hSome⟩
    exact ⟨test, hTest, by rw [hSome]; rfl⟩

theorem readBranch_eq_ok_iff
    {t : Text}
    {value : Literal} :
    readBranch t = .ok value ↔
      Literal.ofText? (Text.trim t) = some value := by
  rw [readBranch]
  cases hRead : Literal.ofText? (Text.trim t) with
  | none => simp
  | some found => simp

/- What a choice is read from. -/
theorem readChoice_eq_ok_iff :
    readChoice env e condition whenTrue whenFalse = .ok item ↔
      ∃ choice,
        choice.IsReadFrom env condition whenTrue whenFalse ∧
          item = { source := e, choice := some choice } := by
  constructor
  · intro hRead
    rcases bind_eq_ok_iff.mp hRead with ⟨test, hTest, hRest⟩
    rcases bind_eq_ok_iff.mp hRest with ⟨trueValue, hTrue, hRest⟩
    rcases bind_eq_ok_iff.mp hRest with ⟨falseValue, hFalse, hEq⟩
    rw [readTest_eq_ok_iff] at hTest
    rw [readBranch_eq_ok_iff] at hTrue hFalse
    cases hEq
    exact ⟨_, ⟨rfl, hTest.1, hTest.2, hTrue, hFalse⟩, rfl⟩
  · rintro ⟨choice, hChoice, rfl⟩
    rcases choice with ⟨text, test, trueValue, falseValue⟩
    have hText : text = Text.trim condition := hChoice.text
    have hTest :=
      readTest_eq_ok_iff (e := e).mpr ⟨hChoice.condition, hChoice.nonempty⟩
    have hTrue := readBranch_eq_ok_iff.mpr hChoice.whenTrue
    have hFalse := readBranch_eq_ok_iff.mpr hChoice.whenFalse
    simp only [readChoice, hTest, hTrue, hFalse, bind, Except.bind, hText]

/- Blanks around the three texts make no difference. -/
theorem readChoice_trim :
    readChoice env e (Text.trim condition) (Text.trim whenTrue)
        (Text.trim whenFalse) =
      readChoice env e condition whenTrue whenFalse := by
  simp only [readChoice, readBranch, Text.trim_trim]

/- No blank text is a literal. -/
theorem not_isBlank_of_literal
    {t : Text}
    {value : Literal}
    (hRead : Literal.ofText? (Text.trim t) = some value) :
    ¬ Text.IsBlank t := by
  intro hBlank
  have hNone : Literal.ofText? [] = none := by decide
  rw [Text.trim_eq_nil_iff.mpr hBlank, hNone] at hRead
  cases hRead

/- A choice has a condition. -/
theorem not_isBlank_condition
    (hChoice : choice.IsReadFrom env condition whenTrue whenFalse) :
    ¬ Text.IsBlank condition := by
  intro hBlank
  have hEmpty := hChoice.condition
  rw [Text.trim_eq_nil_iff.mpr hBlank] at hEmpty
  have hNone := hChoice.nonempty
  rw [← Except.ok.inj hEmpty] at hNone
  cases hNone

------------------------------------------------------------
-- Texts that Are a Case
------------------------------------------------------------

/- The keywords of a case. -/
def caseWords : List Text :=
  ["CASE".toList, "WHEN".toList, "THEN".toList, "ELSE".toList,
    "END".toList]

/- The keywords of a case, each with the text behind it. -/
def caseParts
    (operand condition whenTrue whenFalse : Text) :
    List (Text × Text) :=
  [("CASE".toList, operand), ("WHEN".toList, condition),
    ("THEN".toList, whenTrue), ("ELSE".toList, whenFalse),
    ("END".toList, [])]

/- The text begins like a case. -/
def BeginsCase
    (e : Text) : Prop :=
  ((Cursor.ofText e).afterKeyword? "CASE".toList).isSome = true

instance
    (e : Text) :
    Decidable (BeginsCase e) := by
  unfold BeginsCase
  infer_instance

/-
  The text is a case with blanks in front, where the operand
  and the condition hold none of the keywords behind them.
-/
structure IsCase
    (e lead operand condition whenTrue whenFalse : Text) : Prop where
  blank : Text.IsBlank lead
  composed :
    Text.Composed lead
      (caseParts operand condition whenTrue whenFalse) e
  operand :
    ∀ k ∈ ["WHEN".toList, "THEN".toList, "ELSE".toList, "END".toList],
      Text.IsFree [k] operand
  condition :
    ∀ k ∈ ["THEN".toList, "ELSE".toList, "END".toList],
      Text.IsFree [k] condition

/- A keyword of a case is a word of letters and in no literal. -/
theorem of_mem_caseWords
    {k : Text}
    (hMem : k ∈ caseWords) :
    Text.IsLetters k ∧ Text.words k = [k] ∧
      ∀ l ∈ Literal.keywords, ¬ Text.SameWord l k := by
  revert k
  decide

theorem isLetters_of_mem_caseParts
    {operand : Text} :
    ∀ part ∈ caseParts operand condition whenTrue whenFalse,
      Text.IsLetters part.1 := by
  intro part hMem
  have hWord : part.1 ∈ caseWords := List.mem_map_of_mem hMem
  exact (of_mem_caseWords hWord).1

/- No keyword of a case is in a branch. -/
theorem isFree_branch
    {k t : Text}
    {value : Literal}
    (hMem : k ∈ caseWords)
    (hRead : Literal.ofText? (Text.trim t) = some value) :
    Text.IsFree [k] t :=
  Literal.isFree_of_ofText? (of_mem_caseWords hMem).1
    (of_mem_caseWords hMem).2.2 hRead

------------------------------------------------------------
-- Reading a Case
------------------------------------------------------------

/- The sections of a case that is read. -/
structure HasSections
    (e condition whenTrue whenFalse : Text) : Prop where
  balanced : Text.Balanced e
  last :
    ∃ front keyword, Text.First ["END".toList] e front keyword []
  condition :
    ∃ front keyword after,
      Text.First ["WHEN".toList] e front keyword after ∧
        Text.Until ["THEN".toList] after condition
  whenTrue :
    ∃ front keyword after,
      Text.First ["THEN".toList] e front keyword after ∧
        Text.Until ["ELSE".toList] after whenTrue
  whenFalse :
    ∃ front keyword after,
      Text.First ["ELSE".toList] e front keyword after ∧
        Text.Until ["END".toList] after whenFalse

/- A section between two of the keywords. -/
theorem requireSection_iff_of_mem
    {opening closing s : Text}
    (hBalanced : Text.Balanced e)
    (hOpening : opening ∈ caseWords)
    (hClosing : closing ∈ caseWords) :
    requireSection e opening closing = .ok s ↔
      ∃ front keyword after u,
        Text.First [opening] e front keyword after ∧
          Text.Until [closing] after u ∧
          ¬ Text.IsBlank u ∧ s = Text.trim u := by
  rcases of_mem_caseWords hOpening with ⟨hLetters, hWord, -⟩
  rcases of_mem_caseWords hClosing with ⟨hLetters', hWord', -⟩
  exact requireSection_eq_ok_iff hLetters hWord hLetters' hWord' hBalanced

/- A case is read from its sections. -/
theorem readCase_eq_ok_iff_sections :
    readCase env e = .ok item ↔
      ∃ condition whenTrue whenFalse,
        HasSections e condition whenTrue whenFalse ∧
          readChoice env e condition whenTrue whenFalse = .ok item := by
  constructor
  · intro hRead
    rcases bind_eq_ok_iff.mp hRead with ⟨⟨⟩, hLast, hRest⟩
    rcases bind_eq_ok_iff.mp hRest with ⟨c, hCondition, hRest⟩
    rcases bind_eq_ok_iff.mp hRest with ⟨t, hTrue, hRest⟩
    rcases bind_eq_ok_iff.mp hRest with ⟨f, hFalse, hChoice⟩
    rcases requireEnd_eq_ok_iff.mp hLast with ⟨hBalanced, hLast⟩
    rcases (requireSection_iff_of_mem hBalanced (by decide)
        (by decide)).mp hCondition
      with ⟨fW, kW, aW, condition, hFirstW, hUntilW, -, rfl⟩
    rcases (requireSection_iff_of_mem hBalanced (by decide)
        (by decide)).mp hTrue
      with ⟨fT, kT, aT, whenTrue, hFirstT, hUntilT, -, rfl⟩
    rcases (requireSection_iff_of_mem hBalanced (by decide)
        (by decide)).mp hFalse
      with ⟨fE, kE, aE, whenFalse, hFirstE, hUntilE, -, rfl⟩
    rw [readChoice_trim] at hChoice
    exact
      ⟨condition, whenTrue, whenFalse,
        ⟨hBalanced, hLast, ⟨fW, kW, aW, hFirstW, hUntilW⟩,
          ⟨fT, kT, aT, hFirstT, hUntilT⟩, ⟨fE, kE, aE, hFirstE, hUntilE⟩⟩,
        hChoice⟩
  · rintro ⟨condition, whenTrue, whenFalse, hSections, hRead⟩
    rcases readChoice_eq_ok_iff.mp hRead with ⟨choice, hChoice, -⟩
    rcases hSections with
      ⟨hBalanced, hLast, ⟨fW, kW, aW, hFirstW, hUntilW⟩,
        ⟨fT, kT, aT, hFirstT, hUntilT⟩, ⟨fE, kE, aE, hFirstE, hUntilE⟩⟩
    have hSection
        {opening closing front keyword after u : Text}
        (hFirst : Text.First [opening] e front keyword after)
        (hUntil : Text.Until [closing] after u)
        (hText : ¬ Text.IsBlank u)
        (hOpening : opening ∈ caseWords)
        (hClosing : closing ∈ caseWords) :
        requireSection e opening closing = .ok (Text.trim u) :=
      (requireSection_iff_of_mem hBalanced hOpening hClosing).mpr
        ⟨front, keyword, after, u, hFirst, hUntil, hText, rfl⟩
    have hCondition :=
      hSection hFirstW hUntilW (not_isBlank_condition hChoice)
        (by decide) (by decide)
    have hTrue :=
      hSection hFirstT hUntilT (not_isBlank_of_literal hChoice.whenTrue)
        (by decide) (by decide)
    have hFalse :=
      hSection hFirstE hUntilE (not_isBlank_of_literal hChoice.whenFalse)
        (by decide) (by decide)
    have hEnd := requireEnd_eq_ok_iff.mpr ⟨hBalanced, hLast⟩
    simp only [readCase, hEnd, hCondition, hTrue, hFalse, bind,
      Except.bind]
    rw [readChoice_trim, hRead]

/-
  Where the branches are literals, the keywords behind WHEN
  occur first in their order, and each is the first of its
  kind behind the one before as well. This goes from the end
  of the text to its start: nothing is behind END, a branch
  holds no keyword, and so the places come one by one.
-/
theorem HasSections.exists_places
    {trueValue falseValue : Literal}
    (hSections : HasSections e condition whenTrue whenFalse)
    (hTrue :
      Literal.ofText? (Text.trim whenTrue) = some trueValue)
    (hFalse :
      Literal.ofText? (Text.trim whenFalse) = some falseValue) :
    ∃ fWhen kWhen aWhen fThen kThen aThen fElse kElse aElse fEnd kEnd,
      Text.First ["WHEN".toList] e fWhen kWhen aWhen ∧
        (Text.First ["THEN".toList] e fThen kThen aThen ∧
          Text.First ["THEN".toList] aWhen condition kThen aThen) ∧
        (Text.First ["ELSE".toList] e fElse kElse aElse ∧
          Text.First ["ELSE".toList] aThen whenTrue kElse aElse) ∧
        (Text.First ["END".toList] e fEnd kEnd [] ∧
          Text.First ["END".toList] aElse whenFalse kEnd []) ∧
        fThen = fWhen ++ (kWhen ++ condition) ∧
        fThen.length < fElse.length ∧ fElse.length < fEnd.length := by
  have hLetters {k : Text} (hMem : k ∈ caseWords) :=
    (of_mem_caseWords hMem).1
  have hWord {k : Text} (hMem : k ∈ caseWords) :=
    (of_mem_caseWords hMem).2.1
  rcases hSections.last with ⟨fEnd, kEnd, hEnd⟩
  rcases hSections.condition with ⟨fWhen, kWhen, aWhen, hWhen, hUntilThen⟩
  rcases hSections.whenTrue with ⟨fThen, kThen, aThen, hThen, hUntilElse⟩
  rcases hSections.whenFalse with ⟨fElse, kElse, aElse, hElse, hUntilEnd⟩
  have hElseEnd : fElse.length < fEnd.length :=
    hEnd.occurs.length_lt_of_isFree (hLetters (by decide))
      (hLetters (by decide)) (by decide) Text.balanced_nil
      (Text.isFree_nil _) hElse.occurs
  rcases hElse.of_until (hLetters (by decide)) (hLetters (by decide))
      (hWord (by decide)) hUntilEnd hEnd hElseEnd
    with ⟨-, hEndBehind⟩
  have hElseBalanced : Text.Balanced aElse :=
    hElse.occurs.balanced_after
      (Text.isLetters_of_mem_singleton (hLetters (by decide)))
      hSections.balanced
  have hElseFree
      {k : Text}
      (hMem : k ∈ ["WHEN".toList, "THEN".toList]) :
      Text.IsFree [k] aElse := by
    have hMem' : k ∈ caseWords ∧ ¬ Text.SameWord "END".toList k := by
      revert k
      decide
    exact
      hEndBehind.occurs.isFree (hLetters (by decide)) (hLetters hMem'.1)
        hMem'.2 Text.balanced_nil (isFree_branch hMem'.1 hFalse)
        (Text.isFree_nil _)
  have hThenElse : fThen.length < fElse.length :=
    hElse.occurs.length_lt_of_isFree (hLetters (by decide))
      (hLetters (by decide)) (by decide) hElseBalanced
      (hElseFree (by decide)) hThen.occurs
  rcases hThen.of_until (hLetters (by decide)) (hLetters (by decide))
      (hWord (by decide)) hUntilElse hElse hThenElse
    with ⟨-, hElseBehind⟩
  have hThenBalanced : Text.Balanced aThen :=
    hThen.occurs.balanced_after
      (Text.isLetters_of_mem_singleton (hLetters (by decide)))
      hSections.balanced
  have hThenFree : Text.IsFree ["WHEN".toList] aThen :=
    hElseBehind.occurs.isFree (hLetters (by decide))
      (hLetters (by decide)) (by decide) hElseBalanced
      (isFree_branch (by decide) hTrue) (hElseFree (by decide))
  have hWhenThen : fWhen.length < fThen.length :=
    hThen.occurs.length_lt_of_isFree (hLetters (by decide))
      (hLetters (by decide)) (by decide) hThenBalanced hThenFree
      hWhen.occurs
  rcases hWhen.of_until (hLetters (by decide)) (hLetters (by decide))
      (hWord (by decide)) hUntilThen hThen hWhenThen
    with ⟨hFrontThen, hThenBehind⟩
  exact
    ⟨fWhen, kWhen, aWhen, fThen, kThen, aThen, fElse, kElse, aElse, fEnd,
      kEnd, hWhen, ⟨hThen, hThenBehind⟩, ⟨hElse, hElseBehind⟩,
      ⟨hEnd, hEndBehind⟩, hFrontThen, hThenElse, hElseEnd⟩

/- The first WHEN stands behind the CASE that a text begins with. -/
theorem exists_operand_of_beginsCase
    {front keyword after : Text}
    (hCase : BeginsCase e)
    (hWhen : Text.First ["WHEN".toList] e front keyword after) :
    ∃ lead kCase operand rest,
      Text.IsBlank lead ∧ Text.Occurs ["CASE".toList] e lead kCase rest ∧
        Text.Occurs ["WHEN".toList] rest operand keyword after ∧
        front = lead ++ (kCase ++ operand) := by
  have hLetters : Text.IsLetters "CASE".toList := by decide
  have hLetters' : Text.IsLetters "WHEN".toList := by decide
  rcases Option.isSome_iff_exists.mp hCase with ⟨start, hStart⟩
  rcases Cursor.exists_occurs_of_afterKeyword? hLetters (by decide) hStart
    with ⟨lead, kCase, hBlank, hOccurs⟩
  rcases hOccurs.front_or_behind hLetters hLetters' (by decide) hWhen.occurs
    with ⟨rest, hIn⟩ | ⟨operand, hFront, hBehind⟩
  · -- There are only blanks in front of CASE.
    have hWords := Text.isLetters_of_mem_singleton hLetters'
    exact
      absurd hIn
        ((Text.isFree_iff hWords hOccurs.balanced).mp
          (Text.isFree_of_isBlank hWords hBlank) _ _ _)
  · exact
      ⟨lead, kCase, operand, start.rest, hBlank, hOccurs, hBehind, hFront⟩

/-
  Where the branches are literals, the sections follow each
  other, with nothing between them but their keywords.
-/
theorem HasSections.isCase
    {trueValue falseValue : Literal}
    (hCase : BeginsCase e)
    (hSections : HasSections e condition whenTrue whenFalse)
    (hTrue :
      Literal.ofText? (Text.trim whenTrue) = some trueValue)
    (hFalse :
      Literal.ofText? (Text.trim whenFalse) = some falseValue) :
    ∃ lead operand,
      IsCase e lead operand condition whenTrue whenFalse := by
  rcases hSections.exists_places hTrue hFalse
    with ⟨fWhen, kWhen, aWhen, fThen, kThen, aThen, fElse, kElse, aElse,
      fEnd, kEnd, hWhen, ⟨hThen, hThenBehind⟩, ⟨hElse, hElseBehind⟩,
      ⟨hEnd, hEndBehind⟩, hFrontThen, hThenElse, hElseEnd⟩
  rcases exists_operand_of_beginsCase hCase hWhen
    with ⟨lead, kCase, operand, rest, hBlank, hCaseFirst, hWhenBehind,
      hFrontWhen⟩
  have hWhenThen : fWhen.length ≤ fThen.length := by
    rw [hFrontThen, List.length_append]
    omega
  -- A keyword that occurs first behind a text is not in it.
  have hOperand
      {k f kk a : Text}
      (hMem : k ∈ caseWords)
      (hFirst : Text.First [k] e f kk a)
      (hLe : fWhen.length ≤ f.length) :
      Text.IsFree [k] operand :=
    hFirst.isFree_between (by decide) (of_mem_caseWords hMem).1 hCaseFirst
      hWhenBehind (hFrontWhen ▸ hLe)
  have hCondition
      {k f kk a : Text}
      (hMem : k ∈ caseWords)
      (hFirst : Text.First [k] e f kk a)
      (hLe : fThen.length ≤ f.length) :
      Text.IsFree [k] condition :=
    hFirst.isFree_between (by decide) (of_mem_caseWords hMem).1
      hWhen.occurs hThenBehind.occurs (hFrontThen ▸ hLe)
  refine ⟨lead, operand, hBlank, ?_, ?_, ?_⟩
  · exact
      ⟨kCase, rest, hCaseFirst, kWhen, aWhen, hWhenBehind, kThen, aThen,
        hThenBehind.occurs, kElse, aElse, hElseBehind.occurs, kEnd, [],
        hEndBehind.occurs, rfl, Text.balanced_nil⟩
  · intro k hMem
    simp only [List.mem_cons, List.not_mem_nil, or_false] at hMem
    rcases hMem with rfl | rfl | rfl | rfl
    · exact hOperand (by decide) hWhen (Nat.le_refl _)
    · exact hOperand (by decide) hThen (by omega)
    · exact hOperand (by decide) hElse (by omega)
    · exact hOperand (by decide) hEnd (by omega)
  · intro k hMem
    simp only [List.mem_cons, List.not_mem_nil, or_false] at hMem
    rcases hMem with rfl | rfl | rfl
    · exact hCondition (by decide) hThen (Nat.le_refl _)
    · exact hCondition (by decide) hElse (by omega)
    · exact hCondition (by decide) hEnd (by omega)

/-
  Where the branches are literals, a keyword of a case is none
  of those in front of it, and in none of the texts behind
  these.
-/
theorem IsCase.pairwise
    {lead operand : Text}
    {trueValue falseValue : Literal}
    (hCase : IsCase e lead operand condition whenTrue whenFalse)
    (hTrue :
      Literal.ofText? (Text.trim whenTrue) = some trueValue)
    (hFalse :
      Literal.ofText? (Text.trim whenFalse) = some falseValue) :
    (caseParts operand condition whenTrue whenFalse).Pairwise
      fun part later =>
        ¬ Text.SameWord part.1 later.1 ∧
          Text.IsFree [later.1] part.2 := by
  have hOperand := hCase.operand
  have hCondition := hCase.condition
  simp only [caseParts, List.pairwise_cons, List.forall_mem_cons,
    List.not_mem_nil, false_imp_iff, implies_true, List.Pairwise.nil,
    and_true]
  exact
    ⟨⟨⟨by decide, hOperand "WHEN".toList (by decide)⟩,
        ⟨by decide, hOperand "THEN".toList (by decide)⟩,
        ⟨by decide, hOperand "ELSE".toList (by decide)⟩,
        by decide, hOperand "END".toList (by decide)⟩,
      ⟨⟨by decide, hCondition "THEN".toList (by decide)⟩,
        ⟨by decide, hCondition "ELSE".toList (by decide)⟩,
        by decide, hCondition "END".toList (by decide)⟩,
      ⟨⟨by decide, isFree_branch (by decide) hTrue⟩,
        by decide, isFree_branch (by decide) hTrue⟩,
      by decide, isFree_branch (by decide) hFalse⟩

/- A keyword of a case occurs first where nothing in front holds it. -/
theorem exists_first_of_composed
    {lead operand word behind : Text}
    (before : List (Text × Text))
    {rest : List (Text × Text)}
    (hBlank : Text.IsBlank lead)
    (hParts :
      caseParts operand condition whenTrue whenFalse =
        before ++ (word, behind) :: rest)
    (hPairwise :
      (caseParts operand condition whenTrue whenFalse).Pairwise
        fun part later =>
          ¬ Text.SameWord part.1 later.1 ∧
            Text.IsFree [later.1] part.2)
    (hComposed :
      Text.Composed lead
        (caseParts operand condition whenTrue whenFalse) e) :
    ∃ front keyword after,
      Text.First [word] e front keyword after ∧
        Text.Composed behind rest after := by
  have hLetters :
      ∀ part ∈ before ++ (word, behind) :: rest,
        Text.IsLetters part.1 := by
    rw [← hParts]
    exact isLetters_of_mem_caseParts
  have hWord : Text.IsLetters word :=
    hLetters (word, behind)
      (List.mem_append_right before List.mem_cons_self)
  rw [hParts] at hPairwise hComposed
  exact
    hComposed.exists_first
      (fun part h => hLetters part (List.mem_append_left _ h)) hWord
      (Text.isFree_of_isBlank
        (Text.isLetters_of_mem_singleton hWord) hBlank)
      fun part h =>
        (List.pairwise_append.mp hPairwise).2.2 part h _
          List.mem_cons_self

/- A case whose branches are literals has its sections. -/
theorem IsCase.hasSections
    {lead operand : Text}
    {trueValue falseValue : Literal}
    (hCase : IsCase e lead operand condition whenTrue whenFalse)
    (hTrue :
      Literal.ofText? (Text.trim whenTrue) = some trueValue)
    (hFalse :
      Literal.ofText? (Text.trim whenFalse) = some falseValue) :
    HasSections e condition whenTrue whenFalse := by
  have hPairwise := hCase.pairwise hTrue hFalse
  rcases hCase with ⟨hBlank, hComposed, -, hCondition⟩
  have hUntil
      {t word front keyword after : Text}
      (hMem : word ∈ caseWords)
      (hFree : Text.IsFree [word] front)
      (hOccurs : Text.Occurs [word] t front keyword after) :
      Text.Until [word] t front :=
    ((Text.first_iff (of_mem_caseWords hMem).1).mpr
      ⟨hOccurs, hFree⟩).until (of_mem_caseWords hMem).2.1
  rcases
      exists_first_of_composed [("CASE".toList, operand)] hBlank rfl
        hPairwise hComposed
    with ⟨fWhen, kWhen, aWhen, hWhen, _, _, hThenBehind, -⟩
  rcases
      exists_first_of_composed
        [("CASE".toList, operand), ("WHEN".toList, condition)] hBlank rfl
        hPairwise hComposed
    with ⟨fThen, kThen, aThen, hThen, _, _, hElseBehind, -⟩
  rcases
      exists_first_of_composed
        [("CASE".toList, operand), ("WHEN".toList, condition),
          ("THEN".toList, whenTrue)] hBlank rfl hPairwise hComposed
    with ⟨fElse, kElse, aElse, hElse, _, _, hEndBehind, -⟩
  rcases
      exists_first_of_composed
        [("CASE".toList, operand), ("WHEN".toList, condition),
          ("THEN".toList, whenTrue), ("ELSE".toList, whenFalse)]
        hBlank rfl hPairwise hComposed
    with ⟨fEnd, kEnd, aEnd, hEnd, rfl, -⟩
  exact
    { balanced := hComposed.balanced isLetters_of_mem_caseParts
      last := ⟨fEnd, kEnd, hEnd⟩
      condition :=
        ⟨fWhen, kWhen, aWhen, hWhen,
          hUntil (by decide) (hCondition "THEN".toList (by decide))
            hThenBehind⟩
      whenTrue :=
        ⟨fThen, kThen, aThen, hThen,
          hUntil (by decide) (isFree_branch (by decide) hTrue)
            hElseBehind⟩
      whenFalse :=
        ⟨fElse, kElse, aElse, hElse,
          hUntil (by decide) (isFree_branch (by decide) hFalse)
            hEndBehind⟩ }

/- The texts that are read as a case, and what they are read as. -/
theorem readCase_eq_ok_iff
    (hCase : BeginsCase e) :
    readCase env e = .ok item ↔
      ∃ lead operand condition whenTrue whenFalse choice,
        IsCase e lead operand condition whenTrue whenFalse ∧
          choice.IsReadFrom env condition whenTrue whenFalse ∧
          item = { source := e, choice := some choice } := by
  simp only [readCase_eq_ok_iff_sections, readChoice_eq_ok_iff]
  constructor
  · rintro ⟨condition, whenTrue, whenFalse, hSections, choice, hChoice,
      hItem⟩
    rcases hSections.isCase hCase hChoice.whenTrue hChoice.whenFalse
      with ⟨lead, operand, hText⟩
    exact
      ⟨lead, operand, condition, whenTrue, whenFalse, choice, hText,
        hChoice, hItem⟩
  · rintro ⟨lead, operand, condition, whenTrue, whenFalse, choice, hText,
      hChoice, hItem⟩
    exact
      ⟨condition, whenTrue, whenFalse,
        hText.hasSections hChoice.whenTrue hChoice.whenFalse, choice,
        hChoice, hItem⟩

------------------------------------------------------------
-- Expressions
------------------------------------------------------------

/- What begins like a case is a call of a function CASE at most. -/
theorem sameWord_of_beginsCase
    {s name gap argument b : Text}
    (hCase : BeginsCase e)
    (hText : e = s ++ b)
    (hCall : Text.IsCall s name gap argument) :
    Text.SameWord name "CASE".toList := by
  have hLetters : Text.IsLetters "CASE".toList := by decide
  have hLeading : e.takeWhile isNameChar = name := by
    rw [hText]
    exact hCall.leadingWord_append b
  rcases Option.isSome_iff_exists.mp hCase with ⟨after, hAfter⟩
  rcases Cursor.exists_occurs_of_afterKeyword? hLetters (by decide) hAfter
    with ⟨lead, keyword, hBlank, hOccurs⟩
  have hSplit := hOccurs.split
  cases lead with
  | cons c lead =>
      rw [hSplit, List.cons_append, List.takeWhile_cons,
        isNameChar_eq_false_of_isBlank (Text.isBlank_cons.mp hBlank).1]
        at hLeading
      exact absurd hLeading.symm hCall.nonempty
  | nil =>
      have hFound :=
        delimitedLength?_of_spelled
          (Text.isLetters_of_mem_singleton hLetters) hOccurs.spells
          hOccurs.endsAfter
      rw [← List.nil_append (keyword ++ after.rest), ← hSplit] at hFound
      rw [← hLeading]
      exact Text.sameWord_takeWhile_of_delimitedLength? hLetters hFound

/- There is no such function. -/
theorem readCall_ne_ok
    {name arguments : Text}
    (hName : Text.SameWord name "CASE".toList) :
    readCall env e name arguments ≠ .ok item := by
  have hFunction :
      AggregateFunction.ofWord? name = none := by
    rw [ofWord?_of_sameWord hName]
    decide
  have hOther : ¬ Text.SameWord name "IIF".toList :=
    Text.not_sameWord_of_length hName (by decide)
  rw [readCall, hFunction]
  simp only [if_neg hOther]
  intro hOk
  cases hOk

/- A text that ends with a keyword is no call. -/
theorem call?_of_last
    {front keyword : Text}
    (hBalanced : Text.Balanced e)
    (hLast : Text.Occurs ["END".toList] e front keyword []) :
    Text.call? e = .ok none := by
  have hWords : ∀ w ∈ ["END".toList], Text.IsLetters w := by decide
  have hEnd : e.getLast?.any Char.isAlpha = true := by
    rw [hLast.split, List.append_nil,
      List.getLast?_append_of_ne_nil _
        (Text.ne_nil_of_spells hWords hLast.spells)]
    exact Text.getLast?_of_spells hWords hLast.spells
  rcases Text.exists_call? hBalanced with ⟨found, hCall, -⟩
  cases found with
  | none => exact hCall
  | some call =>
      rcases Text.exists_isCall_append hCall
        with ⟨s, gap, b, rfl, hBlank, hShape⟩
      by_cases hNil : b = []
      · rw [hNil, List.append_nil, hShape.getLast?_eq] at hEnd
        exact absurd hEnd (by decide)
      · rw [List.getLast?_append_of_ne_nil _ hNil,
          List.getLast?_eq_some_getLast hNil, Option.any_some,
          isAlpha_eq_false_of_isBlank
            (Text.isBlank_iff.mp hBlank _ (List.getLast_mem hNil))]
          at hEnd
        cases hEnd

/- What begins like a case is read as a case or not at all. -/
theorem readExpression_eq_ok_iff_readCase
    (hCase : BeginsCase e) :
    readExpression env e = .ok item ↔ readCase env e = .ok item := by
  constructor
  · intro hRead
    rcases bind_eq_ok_iff.mp hRead with ⟨found, hCall, hRest⟩
    split at hRest
    · rename_i name arguments
      rcases Text.exists_isCall_append hCall
        with ⟨s, gap, b, hText, -, hShape⟩
      exact
        absurd hRest
          (readCall_ne_ok (sameWord_of_beginsCase hCase hText hShape))
    · rw [BeginsCase] at hCase
      rw [if_pos hCase] at hRest
      exact hRest
  · intro hRead
    rcases readCase_eq_ok_iff_sections.mp hRead
      with ⟨_, _, _, hSections, -⟩
    rcases hSections.last with ⟨front, keyword, hLast⟩
    rw [readExpression, call?_of_last hSections.balanced hLast.occurs]
    rw [BeginsCase] at hCase
    simp only [bind, Except.bind]
    rw [if_pos hCase]
    exact hRead

/-
  Where the text between CASE and WHEN is blank in one way to
  take a case apart, it is in the way that it is read in, and
  both ways go on with the same text.
-/
theorem IsCase.exists_behind_when
    {lead operand lead' gap c t f : Text}
    (hCase : IsCase e lead operand condition whenTrue whenFalse)
    (hBlank : Text.IsBlank lead')
    (hGap : Text.IsBlank gap)
    (hOther : Text.Composed lead' (caseParts gap c t f) e) :
    operand = gap ∧
      ∃ after,
        Text.Composed condition
            [("THEN".toList, whenTrue), ("ELSE".toList, whenFalse),
              ("END".toList, [])]
            after ∧
          Text.Composed c
            [("THEN".toList, t), ("ELSE".toList, f), ("END".toList, [])]
            after := by
  have hLetters {k : Text} (hMem : k ∈ caseWords) :=
    (of_mem_caseWords hMem).1
  have hWords {k : Text} (hMem : k ∈ caseWords) :=
    Text.isLetters_of_mem_singleton (hLetters hMem)
  rcases hCase.composed
    with ⟨kCase, aCase, hFirst, kWhen, aWhen, hWhen, hRest⟩
  rcases hOther with ⟨kCase', aCase', hFirst', kWhen', aWhen', hWhen', hRest'⟩
  have hCases {k t a : Text} (hBlank : Text.IsBlank t)
      (hOccurs : Text.Occurs ["CASE".toList] e t k a) :
      Text.First ["CASE".toList] e t k a :=
    (Text.first_iff (hLetters (by decide))).mpr
      ⟨hOccurs, Text.isFree_of_isBlank (hWords (by decide)) hBlank⟩
  have hAfter :=
    ((hCases hCase.blank hFirst).unique (hWords (by decide))
      (hCases hBlank hFirst')).2
  rw [← hAfter] at hWhen'
  have hOperand :
      Text.First ["WHEN".toList] aCase operand kWhen aWhen :=
    (Text.first_iff (hLetters (by decide))).mpr
      ⟨hWhen, hCase.operand _ (by decide)⟩
  have hBoth :
      Text.First ["WHEN".toList] aCase gap kWhen' aWhen' :=
    (Text.first_iff (hLetters (by decide))).mpr
      ⟨hWhen', Text.isFree_of_isBlank (hWords (by decide)) hGap⟩
  rcases hOperand.unique (hWords (by decide)) hBoth with ⟨hSame, rfl⟩
  exact ⟨hSame, aWhen, hRest, hRest'⟩

/-
  Nothing of the text is left out: up to blanks and letter
  case it is CASE, WHEN and the condition, THEN and the one
  value, ELSE and the other, and END.
-/
def IsSpelledOut
    (env : Environment)
    (e : Text)
    (choice : Choice) : Prop :=
  ∃ lead gap condition whenTrue whenFalse,
    Text.IsBlank lead ∧ Text.IsBlank gap ∧
      Text.Composed lead (caseParts gap condition whenTrue whenFalse) e ∧
      choice.IsReadFrom env condition whenTrue whenFalse

/-
  The text of a case that is read, from its first keyword to
  its last. It is spelled out exactly where nothing stands
  between CASE and WHEN.
-/
theorem exists_case_of_readExpression
    (hCase : BeginsCase e)
    (hRead : readExpression env e = .ok item) :
    ∃ lead operand condition whenTrue whenFalse choice,
      IsCase e lead operand condition whenTrue whenFalse ∧
        choice.IsReadFrom env condition whenTrue whenFalse ∧
        item = { source := e, choice := some choice } ∧
        (IsSpelledOut env e choice ↔ Text.IsBlank operand) := by
  rw [readExpression_eq_ok_iff_readCase hCase, readCase_eq_ok_iff hCase]
    at hRead
  rcases hRead
    with ⟨lead, operand, condition, whenTrue, whenFalse, choice, hText,
      hChoice, hItem⟩
  refine
    ⟨lead, operand, condition, whenTrue, whenFalse, choice, hText,
      hChoice, hItem, ?_, ?_⟩
  · rintro ⟨lead', gap, c, t, f, hBlank, hGap, hOther, -⟩
    rw [(hText.exists_behind_when hBlank hGap hOther).1]
    exact hGap
  · intro hBlank
    exact
      ⟨lead, operand, condition, whenTrue, whenFalse, hText.blank,
        hBlank, hText.composed, hChoice⟩

/- A table with a field of strings. -/
def flagSchema : Schema :=
  ⟨[⟨"A".toList, .ofCategory .string⟩]⟩

/- The choice of a number by that field. -/
def flagItem
    (e : Text) : Item :=
  { source := e
    choice :=
      some
        ⟨"A = '1'".toList,
          .atom false .first
            ⟨"A".toList, .eq, some "1".toList, none,
              some (.string "1".toList)⟩,
          .integer 1, .integer 0⟩ }

/- A case in mixed letters, with a comparison in front of WHEN. -/
def comparedCase : Text :=
  "case A = B when A = '1'\nThen 1 ELSE 0 end".toList

theorem exists_case_of_readExpression_compared :
    BeginsCase comparedCase ∧
      readExpression ⟨flagSchema, ⟨none, none⟩, none⟩ comparedCase =
        .ok (flagItem comparedCase) ∧
      ∃ lead operand condition whenTrue whenFalse choice,
        IsCase comparedCase lead operand condition whenTrue whenFalse ∧
          choice.IsReadFrom ⟨flagSchema, ⟨none, none⟩, none⟩ condition
            whenTrue whenFalse ∧
          flagItem comparedCase =
            { source := comparedCase, choice := some choice } ∧
          (IsSpelledOut ⟨flagSchema, ⟨none, none⟩, none⟩ comparedCase
              choice ↔
            Text.IsBlank operand) :=
  ⟨by decide +kernel, by decide +kernel,
    exists_case_of_readExpression (by decide +kernel)
      (by decide +kernel)⟩

/- Where WHEN does not follow CASE, the case is not spelled out. -/
theorem IsSpelledOut.afterKeyword?
    (hSpelled : IsSpelledOut env e choice) :
    (((Cursor.ofText e).afterKeyword? "CASE".toList).bind fun s =>
        (Cursor.ofText s.rest).afterKeyword? "WHEN".toList).isSome =
      true := by
  rcases hSpelled
    with ⟨lead, gap, _, _, _, hBlank, hGap,
      ⟨kCase, aCase, hCase, kWhen, aWhen, hWhen, -⟩, -⟩
  rw [Cursor.afterKeyword?_of_occurs (by decide) (by decide) hBlank hCase,
    Option.bind_some,
    Cursor.afterKeyword?_of_occurs (by decide) (by decide) hGap hWhen]
  rfl

/- A case with an operand is read, and the operand is left out. -/
theorem not_forall_case_of_readExpression :
    ¬ ∀ schema scope e item,
      BeginsCase e →
        readExpression ⟨schema, scope, none⟩ e = .ok item →
        ∃ choice,
          item.choice = some choice ∧
            IsSpelledOut ⟨schema, scope, none⟩ e choice := by
  intro hAll
  rcases
      hAll flagSchema ⟨none, none⟩
        "CASE A WHEN A = '1' THEN 1 ELSE 0 END".toList
        (flagItem "CASE A WHEN A = '1' THEN 1 ELSE 0 END".toList)
        (by decide +kernel) (by decide +kernel)
    with ⟨choice, -, hSpelled⟩
  exact absurd hSpelled.afterKeyword? (by decide +kernel)

end Item

end SqlSelect
