import SqlSelect.Proofs.Selection.Aliases

/-
  Names behind items. An item that ends in no alias is read
  with one behind it, whether AS stands between the two or
  not, and whether the alias is in quotes or not. Without AS
  the last word of the item decides: there are words that
  belong to the word behind them, and an AS that ends an item
  is taken for the AS of an alias.

  Main statements:
    * `Text.wordsOf_append_word`
    * `Item.TakesName`
    * `Item.cutAlias_append_as`
    * `Item.cutAlias_append_name_iff`
    * `Item.NamesBehind`
    * `Item.readItem_named`
    * `Item.IsRenamedByAll`
-/

namespace SqlSelect

------------------------------------------------------------
-- Words Behind a Text
------------------------------------------------------------

namespace Text

/- The text is one word, without a blank at the top level. -/
structure IsWord
    (w : Text) : Prop where
  some : w ≠ []
  balanced : Balanced w
  passes : Nesting.outside.Passes SqlSelect.isBlank w

/- The text stands between words, as blanks. -/
def IsGap
    (b : Text) : Prop :=
  b ≠ [] ∧ IsBlank b

instance
    (b : Text) :
    Decidable (IsGap b) := by
  unfold IsGap
  infer_instance

variable {s w b : Text}

/- Characters of names are one word. -/
theorem isWord_of_forall
    (hSome : w ≠ [])
    (hName : ∀ c ∈ w, isNameChar c = true) :
    IsWord w := by
  have hBalanced : Balanced w :=
    balanced_of_plain fun c hMem =>
      not_isDelimiter_of_isNameChar (hName c hMem)
  exact
    ⟨hSome, hBalanced,
      Nesting.passes_of_forall hBalanced fun c hMem =>
        isBlank_eq_false_of_isNameChar (hName c hMem)⟩

theorem isWord_of_isLetters
    (hLetters : IsLetters w) :
    IsWord w :=
  isWord_of_forall hLetters.1 (isNameChar_of_isLetters hLetters)

theorem isWord_of_isPlainName
    (hPlain : IsPlainName w) :
    IsWord w := by
  rcases Name.exists_head_of_isPlainName hPlain with ⟨c, rest, rfl, -⟩
  exact
    isWord_of_forall (List.cons_ne_nil c rest) fun _ hMem =>
      Name.isNameChar_of_mem hPlain hMem

theorem isWord_quoted
    (name : Text) :
    IsWord (Name.quoted name) :=
  ⟨by simp [Name.quoted], balanced_quoted (by decide) name,
    Nesting.passes_of_hidden (hidden_quoted (by decide) name)⟩

theorem IsWord.wordsOf_eq
    (hWord : IsWord w) :
    wordsOf w = ⟨[([], w)], []⟩ :=
  wordsOf_word hWord.some hWord.balanced hWord.passes

theorem IsWord.balanced_append
    (hWord : IsWord w)
    (hBalanced : Balanced s)
    (hGap : IsGap b) :
    Balanced (s ++ (b ++ w)) :=
  Text.balanced_append hBalanced
    (Text.balanced_append (balanced_of_isBlank hGap.2) hWord.balanced)

/- A word behind a text is the last of its words. -/
theorem wordsOf_append_word
    (hBalanced : Balanced s)
    (hTrailing : (wordsOf s).trailing = [])
    (hGap : IsGap b)
    (hWord : IsWord w) :
    wordsOf (s ++ (b ++ w)) = ⟨(wordsOf s).list ++ [(b, w)], []⟩ := by
  rw [wordsOf_append w hBalanced hGap.1 hGap.2, hWord.wordsOf_eq]
  simp [Words.append, hTrailing]

/- The text through its own words, whatever is behind them. -/
theorem through_append
    (hBalanced : Balanced s)
    (hTrim : trim s = s)
    (more : List (Text × Text)) :
    Words.through (wordsOf s).list.length
        ⟨(wordsOf s).list ++ more, []⟩ =
      s := by
  have hThrough :=
    Words.through_length (trailing_wordsOf hBalanced hTrim)
  rw [text_wordsOf hBalanced] at hThrough
  rw [Words.through, List.take_left]
  rwa [Words.through, List.take_length] at hThrough

/- The blanks that end a text go on with a gap behind it. -/
theorem exists_trim_append
    (hSome : trim s ≠ [])
    (hSome' : w ≠ [])
    (hTrimmed : IsTrimmed w)
    (hGap : IsGap b) :
    ∃ gap, IsGap gap ∧ trim (s ++ (b ++ w)) = trim s ++ (gap ++ w) := by
  rcases exists_blanks_trim s with ⟨front, gap, hFront, hBlank, hText⟩
  have hWhole :
      s ++ (b ++ w) = front ++ (trim s ++ ((gap ++ b) ++ w)) := by
    conv_lhs => rw [hText]
    simp only [List.append_assoc]
  refine
    ⟨gap ++ b,
      ⟨List.append_ne_nil_of_right_ne_nil gap hGap.1,
        isBlank_append.mpr ⟨hBlank, hGap.2⟩⟩, ?_⟩
  rw [hWhole, trim_append_left _ hFront]
  exact
    trim_eq_of_isTrimmed
      (isTrimmed_append_append _ hSome hSome' (isTrimmed_trim s) hTrimmed)

/- There are no more commas in a text without its blanks. -/
theorem noneAtTop_trim
    {separator : Char}
    (hBalanced : Balanced (trim s))
    (hNone : NoneAtTop separator s) :
    NoneAtTop separator (trim s) := by
  rcases exists_blanks_trim s with ⟨b, b', hBlank, -, hText⟩
  intro m hMem
  apply hNone m
  rw [hText, List.append_assoc,
    marking_append _ (balanced_of_isBlank hBlank),
    marking_append _ hBalanced]
  exact
    List.mem_append_right _ (List.mem_append_left _ hMem)

end Text

------------------------------------------------------------
-- Cutting Off a Name
------------------------------------------------------------

namespace Item

/-
  A name can stand behind the text without AS. The last word
  of the text neither belongs to the word behind it nor is an
  AS that has an item in front of it.
-/
def TakesName
    (t : Text) : Prop :=
  match (Text.wordsOf t).words.reverse with
  | [] => True
  | last :: before =>
      ¬ IsOneOf bindingWords last ∧
        (before = [] ∨ ¬ Text.SameWord last "AS".toList)

instance
    (t : Text) :
    Decidable (TakesName t) := by
  unfold TakesName
  split <;> infer_instance

variable {e w gap gap' keyword : Text}

/- The alias behind AS, of a text whose words are told. -/
theorem cutAlias_of_as
    {t last before : Text}
    {rest : List Text}
    (hBalanced : Text.Balanced t)
    (hWords :
      (Text.wordsOf t).words.reverse =
        last :: keyword :: before :: rest)
    (hKeyword : Text.SameWord keyword "AS".toList) :
    cutAlias t =
      .ok
        ((Text.wordsOf t).through (rest.length + 1),
          some (Name.unquote last)) := by
  rw [cutAlias, Text.topWords_eq hBalanced]
  simp only [Except.map, hWords, if_pos hKeyword]

/- The last word of a text in which no AS is in front of it. -/
theorem cutAlias_of_not_as
    {t last before : Text}
    {rest : List Text}
    (hBalanced : Text.Balanced t)
    (hWords :
      (Text.wordsOf t).words.reverse = last :: before :: rest)
    (hOther : rest = [] ∨ ¬ Text.SameWord before "AS".toList) :
    cutAlias t =
      .ok
        (if IsAliasAfter before last then
          ((Text.wordsOf t).through (rest.length + 1),
            some (Name.unquote last))
        else (t, none)) := by
  rw [cutAlias, Text.topWords_eq hBalanced]
  cases rest with
  | nil => simp only [Except.map, hWords, cutLastAlias]
  | cons word rest =>
      have hNot : ¬ Text.SameWord before "AS".toList :=
        hOther.resolve_left (List.cons_ne_nil word rest)
      simp only [Except.map, hWords, if_neg hNot, cutLastAlias]

/- A word behind AS is the alias of what stands in front. -/
theorem cutAlias_append_as
    (hSome : e ≠ [])
    (hBalanced : Text.Balanced e)
    (hTrim : Text.trim e = e)
    (hGap : Text.IsGap gap)
    (hKeyword : Text.SameWord keyword "AS".toList)
    (hGap' : Text.IsGap gap')
    (hWord : Text.IsWord w) :
    cutAlias (e ++ (gap ++ (keyword ++ (gap' ++ w)))) =
      .ok (e, some (Name.unquote w)) := by
  have hAs :=
    Text.isWord_of_isLetters
      (Text.isLetters_of_sameWord hKeyword (by decide))
  have hTrailing := Text.trailing_wordsOf hBalanced hTrim
  have hFront :=
    Text.wordsOf_append_word hBalanced hTrailing hGap hAs
  have hFrontBalanced := hAs.balanced_append hBalanced hGap
  have hWords :=
    Text.wordsOf_append_word hFrontBalanced (by rw [hFront]) hGap' hWord
  have hWhole := hWord.balanced_append hFrontBalanced hGap'
  rw [hFront, List.append_assoc] at hWords
  rw [List.append_assoc, List.append_assoc] at hWords hWhole
  rcases Text.exists_last_wordsOf hSome hBalanced hTrim
    with ⟨last, before, hLast, hLength⟩
  have hReverse :
      (Text.wordsOf (e ++ (gap ++ (keyword ++ (gap' ++ w))))).words.reverse =
        w :: keyword :: last :: before := by
    rw [hWords, ← hLast]
    simp [Words.words]
  rw [cutAlias_of_as hWhole hReverse hKeyword, hLength, hWords,
    Text.through_append hBalanced hTrim]

/-
  A word that may be an alias is one without AS exactly when
  the text takes a name behind it.
-/
theorem cutAlias_append_name_iff
    (hSome : e ≠ [])
    (hBalanced : Text.Balanced e)
    (hTrim : Text.trim e = e)
    (hGap : Text.IsGap gap)
    (hPlain : Text.IsPlainName w)
    (hOther : ¬ IsOneOf notAliases w) :
    cutAlias (e ++ (gap ++ w)) = .ok (e, some w) ↔ TakesName e := by
  have hWord := Text.isWord_of_isPlainName hPlain
  have hWords :=
    Text.wordsOf_append_word hBalanced
      (Text.trailing_wordsOf hBalanced hTrim) hGap hWord
  have hWhole := hWord.balanced_append hBalanced hGap
  have hThrough :=
    Text.through_append hBalanced hTrim [(gap, w)]
  rcases Text.exists_last_wordsOf hSome hBalanced hTrim
    with ⟨last, before, hLast, hLength⟩
  have hReverse :
      (Text.wordsOf (e ++ (gap ++ w))).words.reverse =
        w :: last :: before := by
    rw [hWords, ← hLast]
    simp [Words.words]
  rw [TakesName, hLast]
  by_cases hAs : before = [] ∨ ¬ Text.SameWord last "AS".toList
  · -- The last word is the alias if nothing binds it.
    rw [cutAlias_of_not_as hWhole hReverse hAs, hLength, hWords,
      hThrough,
      Name.unquote_of_isBare (Name.isBare_of_isPlainName hPlain)]
    simp only [IsAliasAfter, hPlain, hOther, or_true, true_and,
      not_false_eq_true, hAs, and_true]
    split_ifs with hBinds
    · simp [hBinds]
    · simp [hBinds]
  · -- The AS is cut off together with the alias.
    rw [not_or, not_not] at hAs
    rcases hAs with ⟨hFront, hAs⟩
    cases before with
    | nil => exact absurd rfl hFront
    | cons word rest =>
        rw [cutAlias_of_as hWhole hReverse hAs]
        constructor
        · intro hCut
          have hShort :
              (Text.wordsOf (e ++ (gap ++ w))).through (rest.length + 1) =
                e :=
            congrArg Prod.fst (Except.ok.inj hCut)
          have hCount :
              rest.length + 1 ≤
                (Text.wordsOf (e ++ (gap ++ w))).list.length := by
            rw [hWords, List.length_append, ← hLength,
              List.length_cons]
            omega
          have hFew := Text.wordsOf_through hWhole hCount
          rw [hShort] at hFew
          rw [hFew, List.length_take, List.length_cons] at hLength
          omega
        · rintro ⟨-, hNil | hNot⟩
          · exact absurd hNil (List.cons_ne_nil word rest)
          · exact absurd hAs hNot

/-
  The text stands for the name behind an item: together with
  any gap in front it is cut off as the alias, and it takes
  the text into no other item of a list.
-/
structure NamesBehind
    (e rest name : Text) : Prop where
  some : rest ≠ []
  trimmed : Text.IsTrimmed rest
  balanced : Text.Balanced rest
  noComma : Text.NoneAtTop ',' rest
  cut :
    ∀ gap,
      Text.IsGap gap → cutAlias (e ++ (gap ++ rest)) = .ok (e, .some name)

/- A word behind AS is a name. -/
theorem namesBehind_as
    (hSome : e ≠ [])
    (hBalanced : Text.Balanced e)
    (hTrim : Text.trim e = e)
    (hKeyword : Text.SameWord keyword "AS".toList)
    (hGap' : Text.IsGap gap')
    (hWord : Text.IsWord w)
    (hTrimmed : Text.IsTrimmed w)
    (hComma : Text.NoneAtTop ',' w) :
    NamesBehind e (keyword ++ (gap' ++ w)) (Name.unquote w) := by
  have hLetters := Text.isLetters_of_sameWord hKeyword (by decide)
  have hAs := Text.isWord_of_isLetters hLetters
  have hTrimmedAs : Text.IsTrimmed keyword :=
    Text.isTrimmed_of_forall fun _ hMem =>
      Text.isBlank_eq_false_of_mem hLetters hMem
  have hCommaAs : Text.NoneAtTop ',' keyword :=
    Text.noComma_of_forall fun c hMem =>
      .inr (Text.isNameChar_of_isLetters hLetters c hMem)
  have hCommaGap : Text.NoneAtTop ',' gap' :=
    Text.noComma_of_forall fun c hMem =>
      .inl (Text.isBlank_iff.mp hGap'.2 c hMem)
  have hGapBalanced := Text.balanced_of_isBlank hGap'.2
  exact
    { some := List.append_ne_nil_of_left_ne_nil hAs.some _
      trimmed :=
        Text.isTrimmed_append_append gap' hAs.some hWord.some hTrimmedAs
          hTrimmed
      balanced := hWord.balanced_append hAs.balanced hGap'
      noComma :=
        Text.noneAtTop_append hAs.balanced hCommaAs
          (Text.noneAtTop_append hGapBalanced hCommaGap hComma)
      cut := fun _ hGap =>
        cutAlias_append_as hSome hBalanced hTrim hGap hKeyword hGap'
          hWord }

/- A plain name needs no AS behind a text that takes one. -/
theorem namesBehind_name
    (hSome : e ≠ [])
    (hBalanced : Text.Balanced e)
    (hTrim : Text.trim e = e)
    (hPlain : Text.IsPlainName w)
    (hOther : ¬ IsOneOf notAliases w)
    (hTakes : TakesName e) :
    NamesBehind e w w where
  some := (Text.isWord_of_isPlainName hPlain).some
  trimmed := Name.isTrimmed_of_isPlainName hPlain
  balanced := (Text.isWord_of_isPlainName hPlain).balanced
  noComma :=
    Text.noComma_of_forall fun _ hMem =>
      .inr (Name.isNameChar_of_mem hPlain hMem)
  cut _ hGap :=
    (cutAlias_append_name_iff hSome hBalanced hTrim hGap hPlain
      hOther).mpr hTakes

------------------------------------------------------------
-- Reading with a Name
------------------------------------------------------------

variable {env : Environment}
variable {rest name : Text}
variable {item : Item}

/-
  With the name behind it the text is read as the item under
  this name. If it is a list of the item alone, it is now one
  of the item under the name.
-/
structure Renames
    (env : Environment)
    (e behind : Text)
    (item : Item)
    (name : Text) : Prop where
  reads :
    readItem env false (e ++ behind) =
      .ok [{ item with aliasName := some name }]
  lists :
    Text.NoneAtTop ',' e →
      ItemList.ofText env false e = .ok ⟨false, [item]⟩ →
        ItemList.ofText env false (e ++ behind) =
          .ok ⟨false, [{ item with aliasName := some name }]⟩

/- A text that is an item by itself is another with an alias. -/
theorem readAliased_some
    (hStar : star? e = .ok none)
    (hRead : readAliased env e none = .ok [item]) :
    readAliased env e (some name) =
      .ok [{ item with aliasName := some name }] := by
  rw [readAliased, hStar] at hRead ⊢
  simp only [bind, Except.bind] at hRead ⊢
  cases hSelected : env.selected? e with
  | some found =>
      simp only [hSelected, withAlias, Except.ok.injEq,
        List.cons.injEq, and_true] at hRead ⊢
      rw [hRead]
  | none =>
      simp only [hSelected] at hRead ⊢
      cases hFound : readExpression env e with
      | error err => simp [hFound, Except.map] at hRead
      | ok found =>
          simp only [hFound, Except.map, withAlias, Except.ok.injEq,
            List.cons.injEq, and_true] at hRead ⊢
          rw [hRead]

/- A list is of rows once if DISTINCT begins it. -/
theorem distinct_of_ofText
    {ordered : Bool}
    {t : Text}
    {list : ItemList}
    (hList : ItemList.ofText env ordered t = .ok list) :
    list.distinct = (splitDistinct (Text.trim t)).1 := by
  rw [ItemList.ofText] at hList
  split at hList
  rename_i distinct rest hSplit
  rw [hSplit]
  split_ifs at hList
  · cases hList
    rfl
  · rw [bind_eq_ok_iff] at hList
    rcases hList with ⟨pieces, -, hItems⟩
    rw [bind_eq_ok_iff] at hItems
    rcases hItems with ⟨items, -, hList⟩
    cases hList
    rfl

/- The DISTINCT that is looked for is the first word. -/
theorem splitDistinct_fst
    {t : Text}
    (hStart : Text.trimStart t = t) :
    (splitDistinct t).1 =
      (delimitedLength? ["DISTINCT".toList] t).isSome := by
  have hSkip : (Cursor.ofText t).skipBlanks = Cursor.ofText t :=
    congrArg (fun u => (⟨t, u, 0⟩ : Cursor)) hStart
  have hWords : Text.words "DISTINCT".toList = ["DISTINCT".toList] := by
    decide
  simp only [splitDistinct, Cursor.afterKeyword?, hSkip, hWords]
  simp only [Cursor.ofText]
  cases delimitedLength? ["DISTINCT".toList] t <;> rfl

theorem splitDistinct_of_fst
    {t : Text}
    (hNone : (splitDistinct t).1 = false) :
    splitDistinct t = (false, t) := by
  rw [splitDistinct] at hNone ⊢
  split at hNone
  · cases hNone
  · rfl

/- No DISTINCT comes in front by what follows behind a gap. -/
theorem splitDistinct_append
    (hSome : e ≠ [])
    (hTrim : Text.trim e = e)
    (hGap : Text.IsGap gap)
    (hNone : (splitDistinct e).1 = false) :
    splitDistinct (e ++ (gap ++ rest)) =
      (false, e ++ (gap ++ rest)) := by
  have hHead := (Text.isTrimmed_trim e).1
  rw [hTrim] at hHead
  have hStart :
      Text.trimStart e = e ∧
        Text.trimStart (e ++ (gap ++ rest)) = e ++ (gap ++ rest) := by
    cases e with
    | nil => exact absurd rfl hSome
    | cons c e =>
        have hFirst : isBlank c = false := by simpa using hHead
        exact
          ⟨Text.trimStart_of_head hFirst, Text.trimStart_of_head hFirst⟩
  have hSeam : Text.Seam e (gap ++ rest) := by
    cases gap with
    | nil => exact absurd rfl hGap.1
    | cons c gap =>
        exact Text.seam_of_blank _ _ (Text.isBlank_cons.mp hGap.2).1
  apply splitDistinct_of_fst
  rw [splitDistinct_fst hStart.1] at hNone
  rw [splitDistinct_fst hStart.2,
    delimitedLength?_append (by decide) hSome hSeam (by simp), hNone]

/- An alias is looked for in a balanced text only. -/
theorem balanced_of_cutAlias
    {t : Text}
    {cut : Text × Option Text}
    (hCut : cutAlias t = .ok cut) :
    Text.Balanced t := by
  by_contra hNot
  rw [cutAlias, Text.topWords, Text.marked_eq, if_neg hNot] at hCut
  cases hCut

/- An item is read as before when its name is cut off. -/
theorem renames_of_namesBehind
    (hRead : readItem env false e = .ok [item])
    (hStar : star? (Text.trim e) = .ok none)
    (hUnnamed : cutAlias (Text.trim e) = .ok (Text.trim e, none))
    (hNames : NamesBehind (Text.trim e) rest name)
    (hGap : Text.IsGap gap) :
    Renames env e (gap ++ rest) item name := by
  have hSome : Text.trim e ≠ [] := by
    intro hNil
    simp [readItem, hNil] at hRead
  rcases
      Text.exists_trim_append hSome hNames.some hNames.trimmed hGap
    with ⟨gap', hGap', hTrim⟩
  have hTrim' :
      Text.trim (Text.trim e ++ (gap' ++ rest)) =
        Text.trim e ++ (gap' ++ rest) := by
    rw [← hTrim, Text.trim_trim]
  have hSome' : Text.trim e ++ (gap' ++ rest) ≠ [] :=
    List.append_ne_nil_of_left_ne_nil hSome _
  have hItem :
      readItem env false (Text.trim e ++ (gap' ++ rest)) =
        .ok [{ item with aliasName := some name }] := by
    have hAliased : readAliased env (Text.trim e) none = .ok [item] := by
      simpa [readItem, hSome, hUnnamed, bind, Except.bind] using hRead
    simp only [readItem, hTrim', if_neg hSome',
      hNames.cut gap' hGap', bind, Except.bind]
    exact readAliased_some hStar hAliased
  constructor
  · rw [← readItem_trim, hTrim, hItem]
  · intro hComma hList
    have hBalanced := balanced_of_cutAlias hUnnamed
    have hNone : (splitDistinct (Text.trim e)).1 = false :=
      (distinct_of_ofText hList).symm
    have hTail : Text.NoneAtTop ',' (gap' ++ rest) :=
      Text.noneAtTop_append (Text.balanced_of_isBlank hGap'.2)
        (Text.noComma_of_forall fun c hMem =>
          .inl (Text.isBlank_iff.mp hGap'.2 c hMem))
        hNames.noComma
    have hTailBalanced :=
      Text.balanced_append (Text.balanced_of_isBlank hGap'.2)
        hNames.balanced
    have hRead' :=
      isRead_of_readItem hSome' hTrim'
        (splitDistinct_append hSome (Text.trim_trim e) hGap' hNone)
        (Text.balanced_append hBalanced hTailBalanced)
        (Text.noneAtTop_append hBalanced
          (Text.noneAtTop_trim hBalanced hComma) hTail)
        hItem
    exact (IsRead.of_trim hTrim hRead').2

/-
  An item that ends in no alias is read under a plain name
  behind AS, under the same name in quotes, and also without
  AS if it takes a name.
-/
theorem readItem_named
    (hRead : readItem env false e = .ok [item])
    (hStar : star? (Text.trim e) = .ok none)
    (hUnnamed : cutAlias (Text.trim e) = .ok (Text.trim e, none))
    (hPlain : Text.IsPlainName name)
    (hOther : ¬ IsOneOf notAliases name)
    (hGap : Text.IsGap gap)
    (hKeyword : Text.SameWord keyword "AS".toList)
    (hGap' : Text.IsGap gap') :
    Renames env e (gap ++ (keyword ++ (gap' ++ name))) item name ∧
      Renames env e (gap ++ (keyword ++ (gap' ++ Name.quoted name))) item
          name ∧
      (TakesName (Text.trim e) → Renames env e (gap ++ name) item name) := by
  have hBalanced := balanced_of_cutAlias hUnnamed
  have hTrim := Text.trim_trim e
  have hSome : Text.trim e ≠ [] := by
    intro hNil
    simp [readItem, hNil] at hRead
  have hRenames {rest : Text} (hNames : NamesBehind (Text.trim e) rest name) :
      Renames env e (gap ++ rest) item name :=
    renames_of_namesBehind hRead hStar hUnnamed hNames hGap
  refine ⟨hRenames ?_, hRenames ?_, fun hTakes => hRenames ?_⟩
  · have hNames :=
      namesBehind_as hSome hBalanced hTrim hKeyword hGap'
        (Text.isWord_of_isPlainName hPlain)
        (Name.isTrimmed_of_isPlainName hPlain)
        (Text.noComma_of_forall fun _ hMem =>
          .inr (Name.isNameChar_of_mem hPlain hMem))
    rwa [Name.unquote_of_isBare (Name.isBare_of_isPlainName hPlain)]
      at hNames
  · have hTrimmed := Text.isTrimmed_trim (Name.quoted name)
    rw [Name.trim_quoted] at hTrimmed
    have hNames :=
      namesBehind_as hSome hBalanced hTrim hKeyword hGap'
        (Text.isWord_quoted name) hTrimmed
        (Text.noneAtTop_of_hidden ',' (Text.hidden_quoted (by decide) name))
    rwa [Name.unquote_quoted] at hNames
  · exact namesBehind_name hSome hBalanced hTrim hPlain hOther hTakes

/- A table with a single field. -/
def singleSchema
    (name : Text) : Schema :=
  ⟨[⟨name, .ofCategory .string⟩]⟩

/- The item of the field of such a table. -/
def singleItem
    (name : Text) : Item :=
  { source := name
    type := some (.ofCategory .string) }

/- A field between blanks, under a name. -/
theorem readItem_named_field :
    Renames ⟨singleSchema "A".toList, ⟨none, none⟩, none⟩ " A ".toList
        " as  x".toList (singleItem "A".toList) "x".toList ∧
      Renames ⟨singleSchema "A".toList, ⟨none, none⟩, none⟩ " A ".toList
        " as  \"x\"".toList (singleItem "A".toList) "x".toList ∧
      Renames ⟨singleSchema "A".toList, ⟨none, none⟩, none⟩ " A ".toList
        " x".toList (singleItem "A".toList) "x".toList := by
  have hAll :=
    readItem_named
      (show
        readItem ⟨singleSchema "A".toList, ⟨none, none⟩, none⟩ false
            " A ".toList =
          .ok [singleItem "A".toList]
        by decide +kernel)
      (by decide +kernel) (by decide +kernel)
      (show Text.IsPlainName "x".toList by decide +kernel)
      (by decide +kernel) (show Text.IsGap " ".toList by decide)
      (show Text.SameWord "as".toList "AS".toList by decide)
      (show Text.IsGap "  ".toList by decide)
  exact ⟨hAll.1, hAll.2.1, hAll.2.2 (by decide +kernel)⟩

/-
  Every name behind the item is an alias of what is read of
  the item on its own, if it has none.
-/
def IsRenamedByAll
    (e : Text) : Prop :=
  ∀ env item name,
    readItem env false e = .ok [item] →
      star? (Text.trim e) = .ok none →
      cutAlias (Text.trim e) = .ok (Text.trim e, none) →
      Text.IsPlainName name →
      ¬ IsOneOf notAliases name →
      readItem env false (e ++ " ".toList ++ name) =
        .ok [{ item with aliasName := some name }]

theorem not_isRenamedByAll
    (hRead :
      readItem ⟨singleSchema e, ⟨none, none⟩, none⟩ false e =
        .ok [singleItem e])
    (hStar : star? (Text.trim e) = .ok none)
    (hUnnamed : cutAlias (Text.trim e) = .ok (Text.trim e, none))
    (hUnknown :
      readItem ⟨singleSchema e, ⟨none, none⟩, none⟩ false
          (e ++ " ".toList ++ "a".toList) ≠
        .ok [{ singleItem e with aliasName := some "a".toList }]) :
    ¬ IsRenamedByAll e := fun hAll =>
  hUnknown
    (hAll _ _ "a".toList hRead hStar hUnnamed (by decide +kernel)
      (by decide +kernel))

/-
  It is not enough that the item ends in no alias. A field can
  go by a word that belongs to the word behind it, and by a
  name that ends in AS.
-/
theorem not_forall_readItem_named :
    ¬ IsRenamedByAll "DATE".toList ∧ ¬ IsRenamedByAll "A AS".toList := by
  constructor
  · exact
      not_isRenamedByAll (by decide +kernel) (by decide +kernel)
        (by decide +kernel) (by decide +kernel)
  · exact
      not_isRenamedByAll (by decide +kernel) (by decide +kernel)
        (by decide +kernel) (by decide +kernel)

end Item

end SqlSelect
