import SqlSelect.Proofs.Choice.Cases
import SqlSelect.Proofs.Selection.Naming

/-
  The two forms of a choice. A function takes its three texts
  apart at commas, and a case finds them by its keywords, but
  both read the same choice from the same three texts. Only
  the case refuses a condition that holds one of the keywords
  behind it, which can also stand beside a parenthesis.

  Main statements:
    * `Item.ofText_iifText_eq_ok_iff`
    * `Item.IsCase.eq_of_composed`
    * `Item.readCase_caseText_eq_ok_iff`
    * `Item.cutAlias_caseText`
    * `Item.exists_end_of_readCase`
    * `Item.ofText_caseText_eq_ok_iff`
    * `Item.case_iff_iif`
    * `Item.not_forall_case_iff_iif`
-/

namespace SqlSelect

/- A choice is read from its texts with any blanks around them. -/
theorem Choice.isReadFrom_congr
    {env : Environment}
    {c c' t t' f f' : Text}
    {choice : Choice}
    (hCondition : Text.trim c' = Text.trim c)
    (hTrue : Text.trim t' = Text.trim t)
    (hFalse : Text.trim f' = Text.trim f) :
    choice.IsReadFrom env c' t' f' ↔ choice.IsReadFrom env c t f := by
  constructor
  · rintro ⟨hText, hTest, hSome, hWhenTrue, hWhenFalse⟩
    rw [hCondition] at hText hTest
    rw [hTrue] at hWhenTrue
    rw [hFalse] at hWhenFalse
    exact ⟨hText, hTest, hSome, hWhenTrue, hWhenFalse⟩
  · rintro ⟨hText, hTest, hSome, hWhenTrue, hWhenFalse⟩
    rw [← hCondition] at hText hTest
    rw [← hTrue] at hWhenTrue
    rw [← hFalse] at hWhenFalse
    exact ⟨hText, hTest, hSome, hWhenTrue, hWhenFalse⟩

/- The texts determine the choice. -/
theorem Choice.IsReadFrom.eq
    {env : Environment}
    {c t f : Text}
    {choice choice' : Choice}
    (hChoice : choice.IsReadFrom env c t f)
    (hChoice' : choice'.IsReadFrom env c t f) :
    choice = choice' := by
  rcases choice with ⟨text, test, whenTrue, whenFalse⟩
  rcases choice' with ⟨text', test', whenTrue', whenFalse'⟩
  have hText := hChoice.text.trans hChoice'.text.symm
  have hTest :=
    Except.ok.inj (hChoice.condition.symm.trans hChoice'.condition)
  have hTrue :=
    Option.some.inj (hChoice.whenTrue.symm.trans hChoice'.whenTrue)
  have hFalse :=
    Option.some.inj (hChoice.whenFalse.symm.trans hChoice'.whenFalse)
  exact (Choice.mk.injEq ..).mpr ⟨hText, hTest, hTrue, hFalse⟩

namespace Item

variable {schema : Schema}
variable {scope : Scope}
variable {c t f e : Text}
variable {item : Item}
variable {items : List Item}
variable {list : ItemList}

/- The item of a choice, which goes by its text. -/
def ofChoice
    (e : Text)
    (choice : Choice) : Item :=
  { source := e, choice := some choice }

------------------------------------------------------------
-- Lists of One Expression
------------------------------------------------------------

/- A text that is one expression is the list of its item. -/
theorem ofText_eq_ok_iff_readExpression
    (hSome : e ≠ [])
    (hTrim : Text.trim e = e)
    (hSplit : splitDistinct e = (false, e))
    (hBalanced : Text.Balanced e)
    (hComma : Text.NoneAtTop ',' e)
    (hCut : cutAlias e = .ok (e, none))
    (hStar : star? e = .ok none) :
    ItemList.ofText ⟨schema, scope, none⟩ false e = .ok list ↔
      ∃ item,
        readExpression ⟨schema, scope, none⟩ e = .ok item ∧
          list = ⟨false, [item]⟩ := by
  rw [ItemList.ofText_single false hSome hTrim hSplit hBalanced hComma,
    map_eq_ok_iff]
  have hItem :
      readItem ⟨schema, scope, none⟩ false e =
        (readExpression ⟨schema, scope, none⟩ e).map fun item => [item] := by
    simp only [readItem, hTrim, if_neg hSome, hCut, bind, Except.bind]
    simp only [readAliased, hStar, bind, Except.bind]
    rfl
  rw [hItem]
  constructor
  · rintro ⟨items, hRead, rfl⟩
    rcases map_eq_ok_iff.mp hRead with ⟨item, hFound, rfl⟩
    exact ⟨item, hFound, rfl⟩
  · rintro ⟨item, hRead, rfl⟩
    exact ⟨[item], map_eq_ok_iff.mpr ⟨item, hRead, rfl⟩, rfl⟩

------------------------------------------------------------
-- The Function
------------------------------------------------------------

/- The function of three arguments. -/
def iifText
    (c t f : Text) : Text :=
  "IIF".toList ++ '(' :: (Text.join ", ".toList [c, t, f] ++ [')'])

/- The text can be an argument of a function. -/
def IsArgument
    (t : Text) : Prop :=
  Text.Balanced t ∧ Text.NoneAtTop ',' t

theorem isCall_iifText
    (hCondition : IsArgument c)
    (hTrue : IsArgument t)
    (hFalse : IsArgument f) :
    Text.IsCall (iifText c t f) "IIF".toList []
        (Text.join ", ".toList [c, t, f]) ∧
      Text.topPieces ',' (Text.join ", ".toList [c, t, f]) =
        [c, ' ' :: t, ' ' :: f] := by
  have hBranches : ∀ s ∈ [t, f], IsArgument s := by
    intro s hMem
    rcases List.mem_pair.mp hMem with rfl | rfl
    · exact hTrue
    · exact hFalse
  have hPieces := Text.topPieces_join hCondition hBranches
  have hNames : ∀ d ∈ "IIF".toList, isNameChar d = true :=
    Text.isNameChar_of_isLetters (by decide)
  exact
    ⟨⟨rfl, by decide, hNames, rfl, hPieces.1⟩, hPieces.2⟩

/- What the function is read as. -/
theorem ofText_iifText_eq_ok_iff
    (hCondition : IsArgument c)
    (hTrue : IsArgument t)
    (hFalse : IsArgument f) :
    ItemList.ofText ⟨schema, scope, none⟩ false (iifText c t f) =
        .ok list ↔
      ∃ choice : Choice,
        choice.IsReadFrom ⟨schema, scope, none⟩ c t f ∧
          list = ⟨false, [ofChoice (iifText c t f) choice]⟩ := by
  rcases isCall_iifText hCondition hTrue hFalse with ⟨hCall, hPieces⟩
  have hWhole := hCall.isWhole (by decide)
  have hBlank : Text.IsBlank [' '] := by decide
  have hChoice (choice : Choice) :
      choice.IsReadFrom ⟨schema, scope, none⟩ c (' ' :: t) (' ' :: f) ↔
        choice.IsReadFrom ⟨schema, scope, none⟩ c t f :=
    Choice.isReadFrom_congr rfl (Text.trim_append_left t hBlank)
      (Text.trim_append_left f hBlank)
  have hRead :
      readExpression ⟨schema, scope, none⟩ (iifText c t f) =
        readChoice ⟨schema, scope, none⟩ (iifText c t f) c (' ' :: t)
          (' ' :: f) := by
    have hName : AggregateFunction.ofWord? "IIF".toList = none := by decide
    rw [readExpression, hCall.call?_eq]
    simp only [bind, Except.bind]
    rw [readCall, hName]
    simp only [if_pos (Text.sameWord_refl "IIF".toList)]
    rw [readConditional, Text.splitTop_eq hCall.balanced, hPieces]
    rfl
  rw [ofText_eq_ok_iff_readExpression hCall.ne_nil hCall.trim_eq
    hWhole.splitDistinct_eq hCall.balanced_text hCall.noComma
    (cutAlias_call hCall) (star?_call hCall), hRead]
  simp only [readChoice_eq_ok_iff]
  constructor
  · rintro ⟨item, ⟨choice, hFrom, rfl⟩, rfl⟩
    exact ⟨choice, (hChoice choice).mp hFrom, rfl⟩
  · rintro ⟨choice, hFrom, rfl⟩
    exact ⟨_, ⟨choice, (hChoice choice).mpr hFrom, rfl⟩, rfl⟩

------------------------------------------------------------
-- The Case
------------------------------------------------------------

/- The text between two blanks. -/
def spaced
    (t : Text) : Text :=
  [' '] ++ (t ++ [' '])

/- The case of the same three texts. -/
def caseText
    (c t f : Text) : Text :=
  "CASE".toList ++
    ([' '] ++
      ("WHEN".toList ++
        (spaced c ++
          ("THEN".toList ++
            (spaced t ++
              ("ELSE".toList ++ (spaced f ++ "END".toList)))))))

theorem balanced_spaced
    (hBalanced : Text.Balanced t) :
    Text.Balanced (spaced t) := by
  have hBlank : Text.Balanced [' '] := by decide
  have hEnd : Text.Balanced (t ++ [' ']) :=
    Text.balanced_append hBalanced hBlank
  exact Text.balanced_append hBlank hEnd

theorem trim_spaced
    (t : Text) :
    Text.trim (spaced t) = Text.trim t :=
  Text.trim_surround (b := [' ']) t (by decide) (by decide)

/- A keyword stands behind a text and its blank. -/
theorem occurs_spaced
    {word rest : Text}
    (hBalanced : Text.Balanced t)
    (hRest : EndsAfter rest) :
    Text.Occurs [word] (spaced t ++ (word ++ rest)) (spaced t) word
      rest := by
  refine
    ⟨rfl, balanced_spaced hBalanced, ?_,
      Text.spells_singleton (Text.sameWord_refl word), hRest⟩
  rw [spaced, ← List.append_assoc,
    List.getLast?_append_of_ne_nil _ (by decide)]
  decide

/- The case is composed of its keywords. -/
theorem composed_caseText
    (hCondition : Text.Balanced c)
    (hTrue : Text.Balanced t)
    (hFalse : Text.Balanced f) :
    Text.Composed []
      (caseParts [' '] (spaced c) (spaced t) (spaced f))
      (caseText c t f) := by
  have hWord (word : Text) :=
    Text.spells_singleton (Text.sameWord_refl word)
  have hEnd :
      Text.Occurs ["END".toList] (spaced f ++ "END".toList) (spaced f)
        "END".toList [] :=
    occurs_spaced hFalse rfl
  exact
    ⟨"CASE".toList, _,
      ⟨rfl, Text.balanced_nil, rfl, hWord "CASE".toList, rfl⟩,
      "WHEN".toList, _,
      ⟨rfl, by decide, rfl, hWord "WHEN".toList, rfl⟩,
      "THEN".toList, _, occurs_spaced hCondition rfl,
      "ELSE".toList, _, occurs_spaced hTrue rfl,
      "END".toList, [], hEnd, rfl, Text.balanced_nil⟩

theorem beginsCase_append
    (rest : Text) :
    BeginsCase ("CASE".toList ++ ([' '] ++ rest)) := by
  have hOccurs :
      Text.Occurs ["CASE".toList] ("CASE".toList ++ ([' '] ++ rest)) []
        "CASE".toList ([' '] ++ rest) :=
    ⟨rfl, Text.balanced_nil, rfl,
      Text.spells_singleton (Text.sameWord_refl _), rfl⟩
  rw [BeginsCase,
    Cursor.afterKeyword?_of_occurs (by decide) (by decide)
      Text.isBlank_nil hOccurs]
  rfl

theorem beginsCase_caseText :
    BeginsCase (caseText c t f) :=
  beginsCase_append _

/-
  A case whose branches are literals is taken apart in one way
  only, if nothing stands between CASE and WHEN: no keyword of
  it occurs in any of the texts behind WHEN.
-/
theorem IsCase.eq_of_composed
    {lead operand condition whenTrue whenFalse lead' gap : Text}
    {trueValue falseValue : Literal}
    (hCase : IsCase e lead operand condition whenTrue whenFalse)
    (hTrue : Literal.ofText? (Text.trim whenTrue) = some trueValue)
    (hFalse : Literal.ofText? (Text.trim whenFalse) = some falseValue)
    (hBlank : Text.IsBlank lead')
    (hGap : Text.IsBlank gap)
    (hOther : Text.Composed lead' (caseParts gap c t f) e) :
    c = condition ∧ t = whenTrue ∧ f = whenFalse := by
  rcases hCase.exists_behind_when hBlank hGap hOther
    with ⟨-, after, hRead, hOther'⟩
  let parts : List (Text × Text) :=
    [("THEN".toList, whenTrue), ("ELSE".toList, whenFalse),
      ("END".toList, [])]
  have hWords : parts.map Prod.fst = caseWords.drop 2 := rfl
  have hWord {part : Text × Text} (hMem : part ∈ parts) :
      part.1 ∈ ["THEN".toList, "ELSE".toList, "END".toList] ∧
        part.1 ∈ caseWords := by
    have hDrop : part.1 ∈ caseWords.drop 2 :=
      hWords ▸ List.mem_map_of_mem hMem
    exact ⟨hDrop, List.mem_of_mem_drop hDrop⟩
  have hDiffer : parts.Pairwise fun p q => ¬ Text.SameWord q.1 p.1 := by
    have hKeywords :
        (parts.map Prod.fst).Pairwise fun k l => ¬ Text.SameWord l k := by
      rw [hWords]
      decide
    exact List.pairwise_map.mp hKeywords
  have hFree :
      ∀ part ∈ parts,
        Text.IsFree [part.1] condition ∧
          ∀ other ∈ parts, Text.IsFree [part.1] other.2 := by
    intro part hMem
    rcases hWord hMem with ⟨hBehind, hKeyword⟩
    refine ⟨hCase.condition _ hBehind, fun other hOther => ?_⟩
    simp only [parts, List.mem_cons, List.not_mem_nil, or_false] at hOther
    rcases hOther with rfl | rfl | rfl
    · exact isFree_branch hKeyword hTrue
    · exact isFree_branch hKeyword hFalse
    · exact Text.isFree_nil _
  have hLetters : ∀ part ∈ parts, Text.IsLetters part.1 :=
    fun part hMem => (of_mem_caseWords (hWord hMem).2).1
  simpa [parts] using hRead.unique hLetters hDiffer hFree hOther' rfl

/- What the case is read as. -/
theorem readCase_caseText_eq_ok_iff
    {env : Environment}
    (hCondition : Text.Balanced c)
    (hTrue : Text.Balanced t)
    (hFalse : Text.Balanced f) :
    readCase env (caseText c t f) = .ok item ↔
      (∀ k ∈ ["THEN".toList, "ELSE".toList, "END".toList],
        Text.IsFree [k] c) ∧
        ∃ choice : Choice,
          choice.IsReadFrom env c t f ∧
            item = ofChoice (caseText c t f) choice := by
  have hComposed := composed_caseText hCondition hTrue hFalse
  have hBlank : Text.IsBlank [' '] := by decide
  have hOperand {k : Text}
      (hMem :
        k ∈ ["WHEN".toList, "THEN".toList, "ELSE".toList, "END".toList]) :
      ∀ w ∈ [k], Text.IsLetters w := by
    have hKeyword : k ∈ caseWords := List.mem_cons_of_mem _ hMem
    simpa using (of_mem_caseWords hKeyword).1
  have hWords {k : Text}
      (hMem : k ∈ ["THEN".toList, "ELSE".toList, "END".toList]) :
      ∀ w ∈ [k], Text.IsLetters w :=
    hOperand (List.mem_cons_of_mem _ hMem)
  have hFrom (choice : Choice) :
      choice.IsReadFrom env (spaced c) (spaced t) (spaced f) ↔
        choice.IsReadFrom env c t f :=
    Choice.isReadFrom_congr (trim_spaced c) (trim_spaced t) (trim_spaced f)
  rw [readCase_eq_ok_iff beginsCase_caseText]
  constructor
  · rintro ⟨lead, operand, c', t', f', choice, hText, hChoice, rfl⟩
    rcases hText.eq_of_composed hChoice.whenTrue hChoice.whenFalse
        Text.isBlank_nil hBlank hComposed
      with ⟨rfl, rfl, rfl⟩
    refine ⟨fun k hMem => ?_, choice, (hFrom choice).mp hChoice, rfl⟩
    exact
      Text.isFree_of_surround (hWords hMem) hBlank hBlank hCondition
        (hText.condition k hMem)
  · rintro ⟨hFree, choice, hChoice, rfl⟩
    have hText :
        IsCase (caseText c t f) [] [' '] (spaced c) (spaced t) (spaced f) :=
      { blank := Text.isBlank_nil
        composed := hComposed
        operand := fun k hMem =>
          Text.isFree_of_isBlank (hOperand hMem) hBlank
        condition := fun k hMem =>
          Text.isFree_surround (hWords hMem) hBlank hBlank hCondition
            (hFree k hMem) }
    exact
      ⟨[], [' '], spaced c, spaced t, spaced f, choice, hText,
        (hFrom choice).mpr hChoice, rfl⟩

------------------------------------------------------------
-- The Words of the Case
------------------------------------------------------------

/- The case up to the first of its values. -/
def caseFront
    (c t : Text) : Text :=
  "CASE".toList ++
    ([' '] ++
      ("WHEN".toList ++ (spaced c ++ ("THEN".toList ++ ([' '] ++ t)))))

theorem balanced_caseFront
    (hCondition : Text.Balanced c)
    (hTrue : Text.Balanced t) :
    Text.Balanced (caseFront c t) := by
  have hFirst :
      Text.Balanced "CASE".toList ∧ Text.Balanced [' '] ∧
        Text.Balanced "WHEN".toList ∧ Text.Balanced "THEN".toList := by
    decide
  rcases hFirst with ⟨hCase, hBlank, hWhen, hThen⟩
  have hBehind :=
    Text.balanced_append hThen (Text.balanced_append hBlank hTrue)
  have hFromWhen :=
    Text.balanced_append hWhen
      (Text.balanced_append (balanced_spaced hCondition) hBehind)
  exact Text.balanced_append hCase (Text.balanced_append hBlank hFromWhen)

theorem wordsOf_of_mem_caseWords
    {k : Text}
    (hMem : k ∈ caseWords) :
    Text.wordsOf k = ⟨[([], k)], []⟩ :=
  (Text.isWord_of_isLetters (of_mem_caseWords hMem).1).wordsOf_eq

/- The words of the case, from its end on. -/
theorem words_caseText
    (hCondition : Text.Balanced c)
    (hTrue : Text.Balanced t)
    (hFalse : Text.Balanced f) :
    (Text.wordsOf (caseText c t f)).words.reverse =
      "END".toList ::
        ((Text.wordsOf f).words.reverse ++
          ("ELSE".toList ::
            (Text.wordsOf (caseFront c t)).words.reverse)) := by
  have hText :
      caseText c t f =
        caseFront c t ++
          ([' '] ++
            ("ELSE".toList ++
              ([' '] ++ (f ++ ([' '] ++ "END".toList))))) := by
    unfold caseText caseFront spaced
    -- The keywords themselves do not matter here.
    generalize "CASE".toList = v, "WHEN".toList = w, "THEN".toList = x,
      "ELSE".toList = y, "END".toList = z
    simp
  have hGap : [' '] ≠ [] ∧ Text.IsBlank [' '] := by decide
  have hElse : Text.Balanced "ELSE".toList := by decide
  rw [hText,
    Text.words_wordsOf_append _ (balanced_caseFront hCondition hTrue)
      hGap.1 hGap.2,
    Text.words_wordsOf_append _ hElse hGap.1 hGap.2,
    Text.words_wordsOf_append _ hFalse hGap.1 hGap.2,
    wordsOf_of_mem_caseWords (k := "ELSE".toList) (by decide),
    wordsOf_of_mem_caseWords (k := "END".toList) (by decide)]
  simp [Words.words]

/- The case begins with its first two words. -/
theorem exists_list_caseText :
    ∃ list,
      (Text.wordsOf (caseText c t f)).list =
        ([], "CASE".toList) :: ([' '], "WHEN".toList) :: list := by
  let rest : Text :=
    c ++
      ([' '] ++
        ("THEN".toList ++
          (spaced t ++ ("ELSE".toList ++ (spaced f ++ "END".toList)))))
  have hText :
      caseText c t f =
        "CASE".toList ++ ([' '] ++ ("WHEN".toList ++ ([' '] ++ rest))) := by
    unfold caseText rest spaced
    generalize "CASE".toList = v, "WHEN".toList = w, "THEN".toList = x,
      "ELSE".toList = y, "END".toList = z
    simp
  have hGap : [' '] ≠ [] ∧ Text.IsBlank [' '] := by decide
  have hBalanced :
      Text.Balanced "CASE".toList ∧ Text.Balanced "WHEN".toList := by
    decide
  rw [hText, Text.wordsOf_append _ hBalanced.1 hGap.1 hGap.2,
    Text.wordsOf_append _ hBalanced.2 hGap.1 hGap.2,
    wordsOf_of_mem_caseWords (k := "CASE".toList) (by decide),
    wordsOf_of_mem_caseWords (k := "WHEN".toList) (by decide)]
  rcases Text.wordsOf rest with ⟨_ | ⟨part, list⟩, trailing⟩
  · exact ⟨_, rfl⟩
  · exact ⟨_, rfl⟩

/- Nothing is cut off behind END, unless AS stands in front of it. -/
theorem cutAlias_caseText
    (hCondition : Text.Balanced c)
    (hTrue : Text.Balanced t)
    (hFalse : Text.Balanced f)
    (hOther :
      ∀ last ∈ (Text.wordsOf f).words.reverse.head?,
        ¬ Text.SameWord last "AS".toList) :
    cutAlias (caseText c t f) = .ok (caseText c t f, none) := by
  have hWhole :=
    (composed_caseText hCondition hTrue hFalse).balanced
      isLetters_of_mem_caseParts
  have hWords := words_caseText hCondition hTrue hFalse
  have hEnd (before : Text) : ¬ IsAliasAfter before "END".toList := by
    rintro ⟨-, hNot, -⟩
    exact hNot (by decide)
  have hCut {before : Text} {rest : List Text}
      (hReverse :
        (Text.wordsOf (caseText c t f)).words.reverse =
          "END".toList :: before :: rest)
      (hNot : ¬ Text.SameWord before "AS".toList) :
      cutAlias (caseText c t f) = .ok (caseText c t f, none) := by
    rw [cutAlias_of_not_as hWhole hReverse (.inr hNot), if_neg (hEnd before)]
  cases hLast : (Text.wordsOf f).words.reverse with
  | nil =>
      rw [hLast] at hWords
      exact hCut hWords (by decide)
  | cons last before =>
      rw [hLast] at hWords hOther
      exact hCut hWords (hOther last rfl)

------------------------------------------------------------
-- The Ends of Literals and Cases
------------------------------------------------------------

/- A literal ends neither in a parenthesis nor in an S. -/
theorem exists_last_of_literal
    {value : Literal}
    (hRead : Literal.ofText? (Text.trim t) = some value) :
    ∃ last,
      (Text.trim t).getLast? = some last ∧ last ≠ ')' ∧
        last.toLower ≠ 's' := by
  have hShape := Literal.shape_of_ofText? hRead
  rw [Text.trim_trim] at hShape
  rcases hShape.exists_last with ⟨last, hLast, hKind⟩
  refine ⟨last, hLast, ?_⟩
  rcases hKind with rfl | rfl | rfl | hDigit | hLower
  · decide
  · decide
  · decide
  · constructor
    · rintro rfl
      exact absurd hDigit (by decide)
    · intro hLower
      rw [← isDigit_toLower, hLower] at hDigit
      exact absurd hDigit (by decide)
  · rw [hLower]
    constructor
    · rintro rfl
      exact absurd hLower (by decide)
    · decide

/- A literal does not end in the word AS. -/
theorem not_as_of_literal
    {value : Literal}
    (hBalanced : Text.Balanced t)
    (hRead : Literal.ofText? (Text.trim t) = some value) :
    ∀ last ∈ (Text.wordsOf t).words.reverse.head?,
      ¬ Text.SameWord last "AS".toList := by
  intro word hMem hAs
  rw [Option.mem_def, List.head?_reverse] at hMem
  rcases Text.exists_append_last hBalanced hMem
    with ⟨front, b, hText, hBlank⟩
  have hLetters := Text.isLetters_of_sameWord hAs (by decide)
  have hFolded :
      (Text.foldCase word).getLast? = some 's' := by
    rw [show Text.foldCase word = Text.foldCase "AS".toList from hAs]
    rfl
  rw [Text.foldCase, List.getLast?_map, Option.map_eq_some_iff] at hFolded
  rcases hFolded with ⟨c, hLast, hLower⟩
  have hGet :=
    Text.getLast?_trim
      (by rw [List.getLast?_append_of_ne_nil front hLetters.1, hLast])
      (Text.isBlank_eq_false_of_mem hLetters (List.mem_of_getLast? hLast))
  rw [← Text.trim_append_right _ hBlank, ← hText] at hGet
  rcases exists_last_of_literal hRead with ⟨d, hLast', -, hOther⟩
  rw [hGet, Option.some.injEq] at hLast'
  exact hOther (hLast' ▸ hLower)

/- The last word of a case that is read is END. -/
theorem exists_end_of_readCase
    {env : Environment}
    (hCase : BeginsCase e)
    (hRead : readCase env e = .ok item) :
    ∃ keyword ∈ (Text.wordsOf e).words.reverse.head?,
      Text.SameWord keyword "END".toList := by
  rcases (readCase_eq_ok_iff hCase).mp hRead
    with ⟨lead, operand, c, t, f, choice, hText, hChoice, -⟩
  have hLetters {k : Text} (hMem : k ∈ caseWords) :=
    (of_mem_caseWords hMem).1
  have hParts :
      caseParts operand c t f =
        [("CASE".toList, operand), ("WHEN".toList, c),
            ("THEN".toList, t)] ++
          [("ELSE".toList, f), ("END".toList, [])] :=
    rfl
  have hComposed := hText.composed
  rw [hParts] at hComposed
  rcases hComposed.exists_occurs_last
      (fun part hMem =>
        isLetters_of_mem_caseParts part
          (hParts ▸ List.mem_append_left _ hMem))
      (hLetters (by decide)) (hLetters (by decide))
    with ⟨front, keyword, hEnd⟩
  -- A blank is between the value and END: no literal ends in a
  -- parenthesis.
  rcases exists_last_of_literal hChoice.whenFalse
    with ⟨last, hLast, hOther, -⟩
  rcases List.eq_nil_or_concat' f with rfl | ⟨value, c, rfl⟩
  · cases hLast
  have hBlank : isBlank c = true := by
    have hBefore := hEnd.endsBefore
    rw [← List.append_assoc, List.getLast?_concat] at hBefore
    by_contra hNot
    have hParen : c = ')' := by simpa [EndsBefore, hNot] using hBefore
    rw [Text.getLast?_trim List.getLast?_concat
      (Bool.not_eq_true _ ▸ hNot)] at hLast
    exact hOther ((Option.some.inj hLast).symm.trans hParen)
  have hGap : [c] ≠ [] ∧ Text.IsBlank [c] :=
    ⟨List.cons_ne_nil c [], Text.isBlank_cons.mpr ⟨hBlank, rfl⟩⟩
  have hBalanced := hEnd.balanced
  rw [← List.append_assoc, Text.balanced_append_blank_iff hGap.2]
    at hBalanced
  have hSame := Text.sameWord_of_spells hEnd.spells
  have hWord :=
    Text.isWord_of_isLetters
      (Text.isLetters_of_sameWord hSame (hLetters (by decide)))
  refine ⟨keyword, ?_, hSame⟩
  have hSplit : e = (front ++ value) ++ ([c] ++ keyword) := by
    rw [hEnd.split]
    simp
  rw [hSplit, Text.words_wordsOf_append _ hBalanced hGap.1 hGap.2,
    hWord.wordsOf_eq]
  simp [Words.words]

------------------------------------------------------------
-- Both Forms
------------------------------------------------------------

/- The case is an argument itself, without blanks at its ends. -/
theorem isArgument_append
    (hFirst : IsArgument e)
    (hSecond : IsArgument t) :
    IsArgument (e ++ t) :=
  ⟨Text.balanced_append hFirst.1 hSecond.1,
    Text.noneAtTop_append hFirst.1 hFirst.2 hSecond.2⟩

theorem isArgument_space :
    IsArgument [' '] := by
  refine ⟨by decide, Text.noComma_of_forall ?_⟩
  exact List.forall_mem_singleton.mpr (.inl (by decide))

theorem isArgument_spaced
    (hText : IsArgument t) :
    IsArgument (spaced t) :=
  isArgument_append isArgument_space
    (isArgument_append hText isArgument_space)

theorem isArgument_of_mem_caseWords
    {k : Text}
    (hMem : k ∈ caseWords) :
    IsArgument k := by
  have hLetters := (of_mem_caseWords hMem).1
  exact
    ⟨(Text.isWord_of_isLetters hLetters).balanced,
      Text.noComma_of_forall fun d hChar =>
        .inr (Text.isNameChar_of_isLetters hLetters d hChar)⟩

theorem isArgument_caseText
    (hCondition : IsArgument c)
    (hTrue : IsArgument t)
    (hFalse : IsArgument f) :
    IsArgument (caseText c t f) := by
  have hWord {k : Text} (hMem : k ∈ caseWords) :=
    isArgument_of_mem_caseWords hMem
  have hFromElse :=
    isArgument_append (hWord (k := "ELSE".toList) (by decide))
      (isArgument_append (isArgument_spaced hFalse)
        (hWord (k := "END".toList) (by decide)))
  have hFromThen :=
    isArgument_append (hWord (k := "THEN".toList) (by decide))
      (isArgument_append (isArgument_spaced hTrue) hFromElse)
  have hFromWhen :=
    isArgument_append (hWord (k := "WHEN".toList) (by decide))
      (isArgument_append (isArgument_spaced hCondition) hFromThen)
  exact
    isArgument_append (hWord (k := "CASE".toList) (by decide))
      (isArgument_append isArgument_space hFromWhen)

theorem getLast?_caseText :
    (caseText c t f).getLast? = some 'D' := by
  have hEnd :
      ∃ front, caseText c t f = front ++ "END".toList := by
    refine
      ⟨"CASE".toList ++
        ([' '] ++
          ("WHEN".toList ++
            (spaced c ++
              ("THEN".toList ++
                (spaced t ++ ("ELSE".toList ++ spaced f)))))), ?_⟩
    unfold caseText
    generalize "CASE".toList = v, "WHEN".toList = w, "THEN".toList = x,
      "ELSE".toList = y, "END".toList = z
    simp
  rcases hEnd with ⟨front, hText⟩
  rw [hText, List.getLast?_append_of_ne_nil _ (by decide)]
  decide

theorem caseText_ne_nil :
    caseText c t f ≠ [] :=
  List.cons_ne_nil _ _

theorem trim_caseText :
    Text.trim (caseText c t f) = caseText c t f := by
  refine Text.trim_eq_of_isTrimmed ⟨rfl, ?_⟩
  rw [getLast?_caseText]
  decide

theorem splitDistinct_caseText :
    splitDistinct (caseText c t f) = (false, caseText c t f) :=
  splitDistinct_append (e := "CASE".toList) (by decide) (by decide)
    (by decide) (by decide +kernel)

/- A case with an alias is not read if its last word is not END. -/
theorem readAliased_ne_ok
    {name : Text}
    (hCase : BeginsCase e)
    (hOther :
      ∀ keyword ∈ (Text.wordsOf e).words.reverse.head?,
        ¬ Text.SameWord keyword "END".toList) :
    readAliased ⟨schema, scope, none⟩ e (some name) ≠ .ok items := by
  intro hRead
  rcases cases_of_readAliased hRead
    with ⟨-, -, hNone, -⟩ | ⟨-, item, -, hFound | ⟨-, hItem⟩⟩
  · cases hNone
  · cases hFound
  · rw [readExpression_eq_ok_iff_readCase hCase] at hItem
    rcases exists_end_of_readCase hCase hItem with ⟨keyword, hMem, hSame⟩
    exact hOther keyword hMem hSame

/- The case without its last words is the beginning of a case. -/
theorem beginsCase_through
    (count : Nat) :
    BeginsCase ((Text.wordsOf (caseText c t f)).through (count + 2)) := by
  rcases exists_list_caseText (c := c) (t := t) (f := f) with ⟨list, hList⟩
  rw [Words.through, hList]
  exact beginsCase_append _

/-
  Where AS stands in front of END, these words are cut off as
  an alias, and what is left does not end in END.
-/
theorem readItem_caseText_ne_ok
    {last : Text}
    {before : List Text}
    (hCondition : IsArgument c)
    (hTrue : IsArgument t)
    (hFalse : IsArgument f)
    (hEnd :
      ∀ w ∈ (Text.wordsOf f).words, ¬ Text.SameWord w "END".toList)
    (hLast : (Text.wordsOf f).words.reverse = last :: before)
    (hAs : Text.SameWord last "AS".toList) :
    readItem ⟨schema, scope, none⟩ false (caseText c t f) ≠ .ok items := by
  have hWhole := (isArgument_caseText hCondition hTrue hFalse).1
  have hWords := words_caseText hCondition.1 hTrue.1 hFalse.1
  rw [hLast, List.cons_append] at hWords
  -- The word in front of AS is one of the value, or ELSE.
  have hFront :
      ∃ word rest,
        before ++
              ("ELSE".toList ::
                (Text.wordsOf (caseFront c t)).words.reverse) =
            word :: rest ∧
          ¬ Text.SameWord word "END".toList := by
    cases before with
    | nil => exact ⟨_, _, rfl, by decide⟩
    | cons word before =>
        refine ⟨word, _, rfl, hEnd word ?_⟩
        rw [← List.mem_reverse, hLast]
        simp
  rcases hFront with ⟨word, rest, hFront, hOther⟩
  rw [hFront] at hWords
  have hSplit :
      (Text.wordsOf (caseText c t f)).words.reverse =
        ["END".toList, last] ++ word :: rest :=
    hWords
  have hCut := Text.words_through hWhole hSplit
  -- The second word of the case is WHEN, and so it is left.
  rcases rest with _ | ⟨next, rest⟩
  · rcases exists_list_caseText (c := c) (t := t) (f := f)
      with ⟨list, hList⟩
    have hSecond := congrArg (fun words => words.reverse[1]?) hWords
    rw [Words.words, hList] at hSecond
    simp only [List.reverse_reverse, List.map_cons] at hSecond
    rw [← Option.some.inj hSecond] at hAs
    exact absurd hAs (by decide)
  · have hCase := beginsCase_through (c := c) (t := t) (f := f) rest.length
    intro hRead
    rw [readItem, trim_caseText, if_neg caseText_ne_nil] at hRead
    rw [cutAlias_of_as hWhole hWords hAs] at hRead
    refine readAliased_ne_ok hCase ?_ hRead
    intro keyword hMem
    have hHead : word = keyword := by
      have hFirst := congrArg List.head? hCut
      rw [List.length_cons, List.length_cons, List.head?_cons] at hFirst
      exact (Option.some.inj (hMem.symm.trans hFirst)).symm
    exact hHead ▸ hOther

/- What the case is read as. -/
theorem ofText_caseText_eq_ok_iff
    (hCondition : IsArgument c)
    (hTrue : IsArgument t)
    (hFalse : IsArgument f)
    (hEnd :
      ∀ w ∈ (Text.wordsOf f).words, ¬ Text.SameWord w "END".toList) :
    ItemList.ofText ⟨schema, scope, none⟩ false (caseText c t f) =
        .ok list ↔
      (∀ k ∈ ["THEN".toList, "ELSE".toList, "END".toList],
        Text.IsFree [k] c) ∧
        ∃ choice : Choice,
          choice.IsReadFrom ⟨schema, scope, none⟩ c t f ∧
            list = ⟨false, [ofChoice (caseText c t f) choice]⟩ := by
  have hText := isArgument_caseText hCondition hTrue hFalse
  by_cases hAs :
      ∀ last ∈ (Text.wordsOf f).words.reverse.head?,
        ¬ Text.SameWord last "AS".toList
  · rw [ofText_eq_ok_iff_readExpression caseText_ne_nil trim_caseText
      splitDistinct_caseText hText.1 hText.2
      (cutAlias_caseText hCondition.1 hTrue.1 hFalse.1 hAs)
      (star?_of_last (by rw [getLast?_caseText]; decide))]
    simp only [readExpression_eq_ok_iff_readCase beginsCase_caseText,
      readCase_caseText_eq_ok_iff hCondition.1 hTrue.1 hFalse.1]
    constructor
    · rintro ⟨item, ⟨hFree, choice, hChoice, rfl⟩, rfl⟩
      exact ⟨hFree, choice, hChoice, rfl⟩
    · rintro ⟨hFree, choice, hChoice, rfl⟩
      exact ⟨_, ⟨hFree, choice, hChoice, rfl⟩, rfl⟩
  · -- With AS at its end the last value is no literal.
    constructor
    · intro hRead
      rw [ItemList.ofText_single false caseText_ne_nil trim_caseText
        splitDistinct_caseText hText.1 hText.2, map_eq_ok_iff] at hRead
      rcases hRead with ⟨items, hRead, -⟩
      cases hLast : (Text.wordsOf f).words.reverse with
      | nil => simp [hLast] at hAs
      | cons last before =>
          have hWord : Text.SameWord last "AS".toList := by
            simpa [hLast] using hAs
          exact
            absurd hRead
              (readItem_caseText_ne_ok hCondition hTrue hFalse hEnd hLast
                hWord)
    · rintro ⟨-, choice, hChoice, -⟩
      exact absurd (not_as_of_literal hFalse.1 hChoice.whenFalse) hAs

/-
  A select list of the case is read exactly when one of the
  function is and the condition holds none of the keywords
  behind it. Both stand for the same choice then, and for
  nothing else.
-/
theorem case_iff_iif
    (schema : Schema)
    (scope : Scope)
    (hCondition : IsArgument c)
    (hTrue : IsArgument t)
    (hFalse : IsArgument f)
    (hEnd :
      ∀ w ∈ (Text.wordsOf f).words, ¬ Text.SameWord w "END".toList) :
    ((∃ list,
        ItemList.ofText ⟨schema, scope, none⟩ false (caseText c t f) =
          .ok list) ↔
      (∃ list,
        ItemList.ofText ⟨schema, scope, none⟩ false (iifText c t f) =
          .ok list) ∧
        ∀ k ∈ ["THEN".toList, "ELSE".toList, "END".toList],
          Text.IsFree [k] c) ∧
      ∀ list list',
        ItemList.ofText ⟨schema, scope, none⟩ false (caseText c t f) =
            .ok list →
          ItemList.ofText ⟨schema, scope, none⟩ false (iifText c t f) =
              .ok list' →
            ∃ choice,
              list = ⟨false, [ofChoice (caseText c t f) choice]⟩ ∧
                list' = ⟨false, [ofChoice (iifText c t f) choice]⟩ := by
  simp only [
    ofText_caseText_eq_ok_iff hCondition hTrue hFalse hEnd,
    ofText_iifText_eq_ok_iff hCondition hTrue hFalse]
  refine ⟨⟨?_, ?_⟩, ?_⟩
  · rintro ⟨list, hFree, choice, hChoice, -⟩
    exact ⟨⟨_, choice, hChoice, rfl⟩, hFree⟩
  · rintro ⟨⟨list, choice, hChoice, -⟩, hFree⟩
    exact ⟨_, hFree, choice, hChoice, rfl⟩
  · rintro list list' ⟨-, choice, hChoice, rfl⟩ ⟨choice', hChoice', rfl⟩
    have hSame := hChoice.eq hChoice'
    subst hSame
    exact ⟨choice, rfl, rfl⟩

/- A condition with a string that spells a keyword. -/
def quotedTest : Text :=
  "A = ' END '".toList

/- The choice of a number by that condition. -/
def quotedChoice : Choice :=
  ⟨quotedTest,
    .atom false .first
      ⟨"A".toList, .eq, some " END ".toList, none,
        some (.string " END ".toList)⟩,
    .integer 1, .integer 0⟩

/- Without a comma in it a text is an argument if it is balanced. -/
theorem isArgument_of_notMem
    (hBoth : Text.Balanced t ∧ ',' ∉ t) :
    IsArgument t :=
  ⟨hBoth.1, Text.noneAtTop_of_notMem hBoth.1 hBoth.2⟩

theorem case_iff_iif_quoted :
    (∀ s ∈ [quotedTest, "1".toList, "0".toList], IsArgument s) ∧
      (∀ w ∈ (Text.wordsOf "0".toList).words,
        ¬ Text.SameWord w "END".toList) ∧
      ItemList.ofText ⟨flagSchema, ⟨none, none⟩, none⟩ false
          (iifText quotedTest "1".toList "0".toList) =
        .ok
          ⟨false,
            [ofChoice (iifText quotedTest "1".toList "0".toList)
              quotedChoice]⟩ ∧
      ∃ list,
        ItemList.ofText ⟨flagSchema, ⟨none, none⟩, none⟩ false
            (caseText quotedTest "1".toList "0".toList) =
          .ok list := by
  have hArguments :
      ∀ s ∈ [quotedTest, "1".toList, "0".toList], IsArgument s := by
    have hBoth :
        ∀ s ∈ [quotedTest, "1".toList, "0".toList],
          Text.Balanced s ∧ ',' ∉ s := by
      decide
    exact fun s hMem => isArgument_of_notMem (hBoth s hMem)
  have hEnd :
      ∀ w ∈ (Text.wordsOf "0".toList).words,
        ¬ Text.SameWord w "END".toList := by
    decide +kernel
  have hFunction :
      ItemList.ofText ⟨flagSchema, ⟨none, none⟩, none⟩ false
          (iifText quotedTest "1".toList "0".toList) =
        .ok
          ⟨false,
            [ofChoice (iifText quotedTest "1".toList "0".toList)
              quotedChoice]⟩ := by
    decide +kernel
  have hFree :
      ∀ k ∈ ["THEN".toList, "ELSE".toList, "END".toList],
        Text.IsFree [k] quotedTest := by
    decide +kernel
  have hBoth :=
    case_iff_iif flagSchema ⟨none, none⟩ (hArguments quotedTest (by decide))
      (hArguments "1".toList (by decide))
      (hArguments "0".toList (by decide)) hEnd
  exact ⟨hArguments, hEnd, hFunction, hBoth.1.mpr ⟨⟨_, hFunction⟩, hFree⟩⟩

/- The text holds no keyword of a case as a word. -/
def AvoidsCaseWords
    (t : Text) : Prop :=
  ∀ w ∈ (Text.wordsOf t).words,
    ∀ k ∈ caseWords.tail, ¬ Text.SameWord w k

instance
    (t : Text) :
    Decidable (AvoidsCaseWords t) := by
  unfold AvoidsCaseWords
  infer_instance

/-
  It is not enough that no keyword of a case is a word of the
  three texts, as a keyword can stand beside a parenthesis.
-/
theorem not_forall_case_iff_iif :
    ¬ ∀ schema scope c t f,
      (∀ s ∈ [c, t, f],
        ¬ Text.IsBlank s ∧ IsArgument s ∧ AvoidsCaseWords s) →
        ((∃ list,
            ItemList.ofText ⟨schema, scope, none⟩ false (iifText c t f) =
              .ok list) ↔
          ∃ list,
            ItemList.ofText ⟨schema, scope, none⟩ false (caseText c t f) =
              .ok list) := by
  intro hAll
  let schema : Schema := ⟨[⟨"END(A)".toList, .ofCategory .integer⟩]⟩
  let test : Text := "END(A) = 1".toList
  have hTexts :
      ∀ s ∈ [test, "1".toList, "0".toList],
        ¬ Text.IsBlank s ∧ (Text.Balanced s ∧ ',' ∉ s) ∧
          AvoidsCaseWords s := by
    decide +kernel
  have hBoth :=
    hAll schema ⟨none, none⟩ test "1".toList "0".toList fun s hMem =>
      ⟨(hTexts s hMem).1, isArgument_of_notMem (hTexts s hMem).2.1,
        (hTexts s hMem).2.2⟩
  have hFunction :
      (ItemList.ofText ⟨schema, ⟨none, none⟩, none⟩ false
        (iifText test "1".toList "0".toList)).toOption.isSome = true := by
    decide +kernel
  have hCase :
      (ItemList.ofText ⟨schema, ⟨none, none⟩, none⟩ false
        (caseText test "1".toList "0".toList)).toOption.isSome = false := by
    decide +kernel
  cases hRead :
      ItemList.ofText ⟨schema, ⟨none, none⟩, none⟩ false
        (iifText test "1".toList "0".toList) with
  | error err =>
      rw [hRead] at hFunction
      cases hFunction
  | ok list =>
      rcases hBoth.mp ⟨list, hRead⟩ with ⟨list', hRead'⟩
      rw [hRead'] at hCase
      cases hCase

end Item

end SqlSelect
