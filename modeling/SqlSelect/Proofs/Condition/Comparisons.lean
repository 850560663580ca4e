import SqlSelect.Proofs.Cursor.Reading

/-
  What is compared with an operand. The text behind it is read
  if and only if it is an operator with one literal or one
  word on its right, a test for a missing value, or a list,
  and nothing but blanks stands behind a test or a list. The
  values of a list are any texts, since only the quotes around
  them are looked at.

  Main statements:
    * `Text.IsSingle`
    * `Predicate.IsRight`
    * `Predicate.IsComparedIn`
    * `Predicate.readRight_eq_ok_iff`
    * `Predicate.readNullTest_eq_ok_iff`
    * `Predicate.readList_eq_ok_iff`
    * `Predicate.readComparison_eq_ok_iff`
-/

namespace SqlSelect

------------------------------------------------------------
-- The Forms of Comparisons
------------------------------------------------------------

/- Apart from blanks around it, the text is a literal or a word. -/
def Text.IsSingle
    (t : Text) : Prop :=
  (Literal.ofText? (trim t)).isSome = true ∨
    ∃ words, topWords (trim t) = .ok words ∧ words.words.length = 1

/-
  The text is an operator for two sides, and it does not go
  on in the text behind it.
-/
inductive Comparison.IsOperator
    (comparison : Comparison)
    (operator behind : Text) : Prop where
  | symbol
      (hFound : ofSymbol? operator = some comparison)
      (hEnds : behind.head?.any Cursor.isSymbol = false)
  | word
      (hFound : ofWord? operator = some comparison)
      (hEnds : behind.head?.any isNameChar = false)

namespace Predicate

/-
  The predicate compares with what is on the right: a literal,
  or a field that takes one word.
-/
inductive IsRight
    (env : Environment)
    (left : Text)
    (comparison : Comparison)
    (right : Text) : Predicate → Prop where
  | value
      (v : Literal)
      (hValue : Literal.ofText? (Text.trim right) = some v) :
      IsRight env left comparison right
        ⟨left, comparison, some v.shown, none, some v⟩
  | field
      (words : Words)
      (field : Text)
      (hOther : Literal.ofText? (Text.trim right) = none)
      (hWords : Text.topWords (Text.trim right) = .ok words)
      (hOne : words.words.length = 1)
      (hField : env.fieldName (Text.trim right) = .ok field) :
      IsRight env left comparison right
        ⟨left, comparison, none, some field, none⟩

/-
  The text behind the left operand is a comparison: an
  operator and its right side, a test for a missing value, or
  a list. The parts are the texts that are taken as they are
  but for the quotes around them.
-/
inductive IsComparedIn
    (env : Environment)
    (left t : Text) : List Text → Predicate → Prop where
  | operator
      (comparison : Comparison)
      (operator right : Text)
      (p : Predicate)
      (hText : t = operator ++ right)
      (hOperator : comparison.IsOperator operator right)
      (hRight : IsRight env left comparison right p) :
      IsComparedIn env left t [] p
  | test
      (comparison : Comparison)
      (spelled behind : Text)
      (hText : t = spelled ++ behind)
      (hTest : comparison = .isNull ∨ comparison = .isNotNull)
      (hSpells : Text.Spells comparison.spelling.words spelled)
      (hBehind : Text.IsBlank behind) :
      IsComparedIn env left t [] (bare left comparison)
  | list
      (word space interior behind : Text)
      (pieces : List Text)
      (hText : t = word ++ (space ++ '(' :: (interior ++ ')' :: behind)))
      (hWord : Text.SameWord word "IN".toList)
      (hSpace : Text.IsBlank space)
      (hInterior : ¬ Text.IsBlank interior)
      (hPieces : Text.splitTop ',' interior = .ok pieces)
      (hBehind : Text.IsBlank behind) :
      IsComparedIn env left t pieces
        ⟨left, .inList,
          some
            (ValueList.encode
              (pieces.map fun piece => Quoted.strip (Text.trim piece))),
          none, none⟩

variable {env : Environment}
variable {predicate left right gap t : Text}
variable {comparison : Comparison}
variable {s : Cursor}
variable {p : Predicate}

------------------------------------------------------------
-- Right Sides
------------------------------------------------------------

/- There is a word at least in a text that is not blank. -/
theorem length_words_pos
    {words : Words}
    (hWords : Text.topWords (Text.trim right) = .ok words)
    (hSome : Text.trim right ≠ []) :
    0 < words.words.length := by
  rw [Text.topWords, Text.marked_eq] at hWords
  split_ifs at hWords with hBalanced
  case neg => cases hWords
  cases hWords
  have hTrim := Text.trim_eq_of_isTrimmed (Text.isTrimmed_trim right)
  rcases Text.exists_last_wordsOf hSome hBalanced hTrim with
    ⟨last, before, hReverse, -⟩
  have hLength := congrArg List.length hReverse
  rw [List.length_reverse, List.length_cons] at hLength
  change 0 < (Text.wordsOf (Text.trim right)).words.length
  omega

theorem readRight_eq_ok_iff :
    readRight env predicate left comparison right = .ok p ↔
      IsRight env left comparison right p := by
  constructor
  · intro hRead
    rw [readRight] at hRead
    simp only at hRead
    split_ifs at hRead with hNil
    split at hRead
    · rename_i v hValue
      cases hRead
      exact .value v hValue
    · rename_i hOther
      rcases bind_eq_ok_iff.mp hRead with ⟨words, hWords, hRest⟩
      split_ifs at hRest with hMore
      rcases map_eq_ok_iff.mp hRest with ⟨field, hField, rfl⟩
      have hPos := length_words_pos hWords hNil
      exact .field words field hOther hWords (by omega) hField
  · intro hRight
    have hSome : Text.trim right ≠ [] := by
      intro hNil
      have hNone : Literal.ofText? [] = none := by decide
      have hNothing : Text.topWords [] = .ok ⟨[], []⟩ := by decide
      cases hRight with
      | value v hValue =>
          rw [hNil, hNone] at hValue
          cases hValue
      | field words field hOther hWords hOne hField =>
          rw [hNil, hNothing] at hWords
          cases hWords
          cases hOne
    rw [readRight]
    simp only [if_neg hSome]
    cases hRight with
    | value v hValue =>
        rw [hValue]
        rfl
    | field words field hOther hWords hOne hField =>
        rw [hOther, hWords]
        change (if 1 < words.words.length then _ else _) = _
        rw [if_neg (by omega), hField]
        rfl

theorem IsRight.isSingle
    (hRight : IsRight env left comparison right p) :
    Text.IsSingle right := by
  cases hRight with
  | value v hValue => exact .inl (by rw [hValue]; rfl)
  | field words field hOther hWords hOne hField =>
      exact .inr ⟨words, hWords, hOne⟩

------------------------------------------------------------
-- Tests
------------------------------------------------------------

/- A keyword does not go on from a name in front of it. -/
theorem gap_ne_nil
    {words : List Text}
    {spelled : Text}
    (hWords : ∀ w ∈ words, Text.IsLetters w)
    (hSpells : Text.Spells words spelled)
    (hHead : (gap ++ (spelled ++ t)).head?.any isNameChar = false) :
    gap ≠ [] := by
  rintro rfl
  have hLetter := Text.head?_of_spells hWords hSpells
  cases spelled with
  | nil => cases hLetter
  | cons c spelled =>
      have hAlpha : c.isAlpha = true := by simpa using hLetter
      have hName := isNameChar_of_isAlpha hAlpha
      have hOther : isNameChar c = false := by simpa using hHead
      rw [hName] at hOther
      cases hOther

theorem nothingAfter_eq_ok_iff :
    nothingAfter predicate s = .ok () ↔ Text.IsBlank s.rest := by
  rw [nothingAfter, ← Text.trim_eq_nil_iff]
  constructor
  · intro hNothing
    by_contra hSome
    simp [hSome] at hNothing
  · exact fun hNil => if_pos hNil

/- Nothing but the keyword stands behind blanks. -/
theorem exists_afterKeyword?_null_iff
    (hNext : s.rest.head?.any isNameChar = false) :
    (∃ after,
        s.afterKeyword? "NULL".toList = some after ∧
          nothingAfter predicate after = .ok ()) ↔
      ∃ following behind,
        s.rest = following ++ behind ∧
          Text.SpellsAfter ["NULL".toList] following ∧
          Text.IsBlank behind := by
  have hWords :
      ∀ w ∈ Text.words "NULL".toList, Text.IsLetters w := by
    decide
  constructor
  · rintro ⟨after, hAfter, hNothing⟩
    rcases (Cursor.afterKeyword?_eq_some_iff hWords).mp hAfter with
      ⟨gap, spelled, t, hRest, hGap, hSpells, -, rfl⟩
    rw [hRest] at hNext
    have hSome := gap_ne_nil hWords hSpells hNext
    have hNull : Text.Spells ["NULL".toList] spelled := hSpells
    rcases hNull with ⟨word, following, rfl, hSame, hFollowing⟩
    refine
      ⟨gap ++ (word ++ following), t, ?_,
        ⟨gap, word, following, rfl, hSome, hGap, hSame, hFollowing⟩,
        nothingAfter_eq_ok_iff.mp hNothing⟩
    simp only [hRest, List.append_assoc]
  · rintro ⟨following, behind, hRest, hFollowing, hBehind⟩
    rcases hFollowing with ⟨gap, word, last, rfl, -, hGap, hSame, hLast⟩
    refine
      ⟨{ s with rest := behind }, ?_, nothingAfter_eq_ok_iff.mpr hBehind⟩
    refine
      (Cursor.afterKeyword?_eq_some_iff hWords).mpr
        ⟨gap, word ++ last, behind, ?_, hGap,
          ⟨word, last, rfl, hSame, hLast⟩, Text.endsAfter_of_isBlank hBehind,
          rfl⟩
    simp only [hRest, List.append_assoc]

/- Where another keyword stands there is no NOT. -/
theorem afterKeyword?_not_eq_none
    {following behind : Text}
    (hRest : s.rest = following ++ behind)
    (hFollowing : Text.SpellsAfter ["NULL".toList] following)
    (hBehind : Text.IsBlank behind) :
    s.afterKeyword? "NOT".toList = none := by
  rcases hFollowing with ⟨gap, word, last, rfl, -, hGap, hSame, rfl⟩
  have hLetters : Text.IsLetters word :=
    Text.isLetters_of_sameWord hSame (by decide)
  have hHead : (word ++ behind).head?.any isBlank = false := by
    cases word with
    | nil => exact absurd rfl hLetters.1
    | cons c word =>
        simpa using
          Text.isBlank_eq_false_of_mem hLetters List.mem_cons_self
  have hStart : s.skipBlanks = { s with rest := word ++ behind } :=
    Cursor.skipBlanks_of_append (by simpa using hRest) hGap hHead
  have hLeading : Text.leadingWord (word ++ behind) = word :=
    Text.takeWhile_isNameChar_append (Text.isNameChar_of_isLetters hLetters)
      (Text.head?_of_endsAfter (Text.endsAfter_of_isBlank hBehind))
  have hOther :
      ¬ Text.SameWord (Text.leadingWord (word ++ behind))
        "NOT".toList := by
    rw [hLeading]
    intro hNot
    exact absurd (hSame.symm.trans hNot) (by decide)
  have hNone :
      delimitedLength? ["NOT".toList] (word ++ behind) = none :=
    Text.delimitedLength?_eq_none_of_leadingWord (by decide) hOther
  rw [Cursor.afterKeyword?, hStart]
  exact congrArg (Option.map _) hNone

/- Which test it is depends on a keyword in front of the last. -/
theorem readNullTest_iff_of_start
    {start : Cursor}
    (hStart :
      s.afterKeyword? "NOT".toList = none ∧
          comparison = .isNull ∧ start = s ∨
        s.afterKeyword? "NOT".toList = some start ∧
          comparison = .isNotNull) :
    readNullTest predicate left s = .ok p ↔
      (∃ after,
        start.afterKeyword? "NULL".toList = some after ∧
          nothingAfter predicate after = .ok ()) ∧
        p = bare left comparison := by
  cases hNull : start.afterKeyword? "NULL".toList with
  | none =>
      have hRead :
          readNullTest predicate left s =
            .error
              (.unknownOperator
                ("IS ".toList ++
                  (Text.firstWord? start.rest).getD [])) := by
        rw [readNullTest]
        rcases hStart with ⟨hNot, rfl, rfl⟩ | ⟨hNot, rfl⟩
        · simp only [hNot, hNull]
        · simp only [hNot, hNull]
      simp [hRead]
  | some after =>
      have hRead :
          readNullTest predicate left s =
            (nothingAfter predicate after).map fun _ =>
              bare left comparison := by
        rw [readNullTest]
        rcases hStart with ⟨hNot, rfl, rfl⟩ | ⟨hNot, rfl⟩
        · simp only [hNot, hNull]
        · simp only [hNot, hNull]
      rw [hRead, map_eq_ok_iff]
      constructor
      · rintro ⟨⟨⟩, hNothing, rfl⟩
        exact ⟨⟨after, rfl, hNothing⟩, rfl⟩
      · rintro ⟨⟨_, hSame, hNothing⟩, rfl⟩
        cases hSame
        exact ⟨(), hNothing, rfl⟩

/-
  A test for a missing value is read from its keywords, with
  blanks behind them.
-/
theorem readNullTest_eq_ok_iff
    (hNext : s.rest.head?.any isNameChar = false) :
    readNullTest predicate left s = .ok p ↔
      ∃ comparison following behind,
        (comparison = .isNull ∨ comparison = .isNotNull) ∧
          s.rest = following ++ behind ∧
          Text.SpellsAfter comparison.spelling.words.tail following ∧
          Text.IsBlank behind ∧
          p = bare left comparison := by
  have hWords :
      ∀ w ∈ Text.words "NOT".toList, Text.IsLetters w := by
    decide
  constructor
  · intro hRead
    cases hNot : s.afterKeyword? "NOT".toList with
    | none =>
        rw [readNullTest_iff_of_start (.inl ⟨hNot, rfl, rfl⟩),
          exists_afterKeyword?_null_iff hNext] at hRead
        rcases hRead with
          ⟨⟨following, behind, hRest, hFollowing, hBehind⟩, rfl⟩
        exact
          ⟨.isNull, following, behind, .inl rfl, hRest, hFollowing,
            hBehind, rfl⟩
    | some start =>
        rcases (Cursor.afterKeyword?_eq_some_iff hWords).mp hNot with
          ⟨gap, spelled, t, hRest, hGap, hSpells, hEnds, rfl⟩
        rw [readNullTest_iff_of_start (.inr ⟨hNot, rfl⟩),
          exists_afterKeyword?_null_iff (Text.head?_of_endsAfter hEnds)]
          at hRead
        rcases hRead with
          ⟨⟨following, behind, hText, hFollowing, hBehind⟩, rfl⟩
        have hSome : gap ≠ [] := by
          rw [hRest] at hNext
          exact gap_ne_nil hWords hSpells hNext
        have hSpelled : Text.Spells ["NOT".toList] spelled := hSpells
        rcases hSpelled with ⟨word, last, rfl, hSame, rfl⟩
        refine
          ⟨.isNotNull, gap ++ (word ++ following), behind, .inr rfl, ?_,
            ⟨gap, word, following, rfl, hSome, hGap, hSame, hFollowing⟩,
            hBehind, rfl⟩
        dsimp only at hText
        simp only [hRest, hText, List.append_assoc, List.nil_append]
  · rintro ⟨comparison, following, behind, rfl | rfl, hRest, hFollowing,
      hBehind, rfl⟩
    · have hNone := afterKeyword?_not_eq_none hRest hFollowing hBehind
      rw [readNullTest_iff_of_start (.inl ⟨hNone, rfl, rfl⟩),
        exists_afterKeyword?_null_iff hNext]
      exact ⟨⟨following, behind, hRest, hFollowing, hBehind⟩, rfl⟩
    · rcases hFollowing with
        ⟨gap, word, last, rfl, -, hGap, hSame, hLast⟩
      have hNull : Text.SpellsAfter ["NULL".toList] last := hLast
      have hEnds : EndsAfter (last ++ behind) :=
        Text.endsAfter_append (Text.endsAfter_of_spellsAfter hNull)
          (Text.endsAfter_of_isBlank hBehind)
      have hNot :
          s.afterKeyword? "NOT".toList =
            some { s with rest := last ++ behind } := by
        refine
          (Cursor.afterKeyword?_eq_some_iff hWords).mpr
            ⟨gap, word, last ++ behind, ?_, hGap,
              Text.spells_singleton hSame, hEnds, rfl⟩
        simp only [hRest, List.append_assoc]
      rw [readNullTest_iff_of_start (.inr ⟨hNot, rfl⟩),
        exists_afterKeyword?_null_iff (Text.head?_of_endsAfter hEnds)]
      exact ⟨⟨last, behind, rfl, hNull, hBehind⟩, rfl⟩

------------------------------------------------------------
-- Lists
------------------------------------------------------------

/-
  A list is read from blanks and a group, with blanks behind,
  and the commas at the top level part its values.
-/
theorem readList_eq_ok_iff :
    readList predicate left s = .ok p ↔
      ∃ space interior behind pieces,
        s.rest = space ++ '(' :: (interior ++ ')' :: behind) ∧
          Text.IsBlank space ∧ ¬ Text.IsBlank interior ∧
          Text.splitTop ',' interior = .ok pieces ∧
          Text.IsBlank behind ∧
          p =
            ⟨left, .inList,
              some
                (ValueList.encode
                  (pieces.map fun piece =>
                    Quoted.strip (Text.trim piece))),
              none, none⟩ := by
  have hPlain : isBlank '(' = false := by decide
  constructor
  · intro hRead
    change (if (s.atChar '(').1 = false then _ else _) = _ at hRead
    split_ifs at hRead with hOpens
    rcases bind_eq_ok_iff.mp hRead with ⟨⟨interior, after⟩, hGroup, hRest⟩
    rcases bind_eq_ok_iff.mp hRest with ⟨⟨⟩, hNothing, hRest⟩
    rcases bind_eq_ok_iff.mp hRest with ⟨values, hValues, hEq⟩
    rw [listValues] at hValues
    split_ifs at hValues with hBlank
    rcases map_eq_ok_iff.mp hValues with ⟨pieces, hPieces, rfl⟩
    have hAt : s.atChar '(' = (true, (s.atChar '(').2) :=
      Prod.ext (Bool.not_eq_false _ ▸ hOpens) rfl
    rcases (Cursor.atChar_eq_true_iff hPlain).mp hAt with
      ⟨space, t, hText, hSpace, hStart⟩
    change s.skipBlanks = _ at hStart
    change s.skipBlanks.group = _ at hGroup
    rw [hStart] at hGroup
    rcases (Cursor.group_eq_ok_iff rfl).mp hGroup with
      ⟨behind, hInside, -, rfl⟩
    dsimp only at hInside
    rw [hInside] at hText
    cases hEq
    exact
      ⟨space, interior, behind, pieces, hText, hSpace, hBlank, hPieces,
        nothingAfter_eq_ok_iff.mp hNothing, rfl⟩
  · rintro ⟨space, interior, behind, pieces, hText, hSpace, hInterior,
      hPieces, hBehind, rfl⟩
    have hBalanced : Text.Balanced interior := by
      by_contra hNot
      rw [Text.splitTop, Text.marked_eq, if_neg hNot] at hPieces
      cases hPieces
    have hAt :=
      (Cursor.atChar_eq_true_iff hPlain).mpr
        ⟨space, interior ++ ')' :: behind, hText, hSpace, rfl⟩
    have hGroup :
        Cursor.group
            { s with rest := '(' :: (interior ++ ')' :: behind) } =
          .ok (interior, { s with rest := behind }) :=
      (Cursor.group_eq_ok_iff rfl).mpr ⟨behind, rfl, hBalanced, rfl⟩
    have hNothing :
        nothingAfter predicate { s with rest := behind } = .ok () :=
      nothingAfter_eq_ok_iff.mpr hBehind
    rw [readList, hAt]
    simp only [Bool.true_eq_false, if_false, hGroup]
    change nothingAfter predicate _ >>= (fun _ => _) = _
    rw [hNothing]
    change listValues predicate interior >>= (fun _ => _) = _
    rw [listValues, if_neg hInterior, hPieces]
    rfl

------------------------------------------------------------
-- Comparisons
------------------------------------------------------------

/- A symbol that is known is made of the characters of symbols. -/
theorem isSymbol_of_ofSymbol?
    {symbol : Text}
    (hFound : Comparison.ofSymbol? symbol = some comparison) :
    symbol.all Cursor.isSymbol = true ∧ symbol ≠ [] := by
  unfold Comparison.ofSymbol? at hFound
  split at hFound <;> first | decide | cases hFound

/- A word that is known is neither of those with their own forms. -/
theorem isLetters_of_ofWord?
    {word : Text}
    (hFound : Comparison.ofWord? word = some comparison) :
    Text.IsLetters word ∧ ¬ Text.SameWord word "IS".toList ∧
      ¬ Text.SameWord word "IN".toList := by
  have hWord
      {keyword : Text}
      (hSame : Text.SameWord word keyword)
      (hLetters : Text.IsLetters keyword)
      (hIs : ¬ Text.SameWord keyword "IS".toList)
      (hIn : ¬ Text.SameWord keyword "IN".toList) :
      Text.IsLetters word ∧ ¬ Text.SameWord word "IS".toList ∧
        ¬ Text.SameWord word "IN".toList :=
    ⟨Text.isLetters_of_sameWord hSame hLetters,
      fun h => hIs (hSame.symm.trans h),
      fun h => hIn (hSame.symm.trans h)⟩
  rw [Comparison.ofWord?] at hFound
  split_ifs at hFound with hLike hRegex hRegexp
  · exact hWord hLike (by decide) (by decide) (by decide)
  · exact hWord hRegex (by decide) (by decide) (by decide)
  · exact hWord hRegexp (by decide) (by decide) (by decide)

/- Both tests begin with the same word. -/
theorem spelling_words_test
    (hTest : comparison = .isNull ∨ comparison = .isNotNull) :
    comparison.spelling.words =
      "IS".toList :: comparison.spelling.words.tail := by
  rcases hTest with rfl | rfl <;> decide

theorem exists_isComparedIn_of_readWordComparison
    (hRead :
      readWordComparison env predicate left ⟨predicate, t, 0⟩ = .ok p) :
    ∃ parts, IsComparedIn env left t parts p := by
  rcases hWord : Cursor.word ⟨predicate, t, 0⟩ with ⟨word, start⟩
  rw [readWordComparison, hWord] at hRead
  rcases Cursor.word_eq_iff.mp hWord with ⟨rest, hRest, -, hNext, rfl⟩
  dsimp only at hRead
  split_ifs at hRead with hIs hIn hNil
  · rcases (readNullTest_eq_ok_iff hNext).mp hRead with
      ⟨comparison, following, behind, hTest, hText, hFollowing, hBehind,
        rfl⟩
    refine
      ⟨[],
        .test comparison (word ++ following) behind ?_ hTest ?_ hBehind⟩
    · rw [List.append_assoc, ← hText]
      exact hRest
    · rw [spelling_words_test hTest]
      exact ⟨word, following, rfl, hIs, hFollowing⟩
  · rcases readList_eq_ok_iff.mp hRead with
      ⟨space, interior, behind, pieces, hText, hSpace, hInterior, hPieces,
        hBehind, rfl⟩
    refine
      ⟨pieces,
        .list word space interior behind pieces ?_ hIn hSpace hInterior
          hPieces hBehind⟩
    rw [← hText]
    exact hRest
  · split at hRead <;> cases hRead
  · split at hRead
    · cases hRead
    · rename_i comparison hFound
      exact
        ⟨[],
          .operator comparison word rest p hRest (.word hFound hNext)
            (readRight_eq_ok_iff.mp hRead)⟩

/- What is read as a comparison behind an operand is one of these. -/
theorem readComparison_eq_ok_iff :
    readComparison env predicate left ⟨predicate, t, 0⟩ = .ok p ↔
      ∃ parts, IsComparedIn env left t parts p := by
  constructor
  · intro hRead
    rw [readComparison] at hRead
    split at hRead
    · rename_i start hNone
      rcases Cursor.symbol?_eq_iff.mp hNone with
        ⟨symbol, rest, hRest, -, -, hFound, rfl⟩
      have hNothing : symbol = [] := by
        cases symbol with
        | nil => rfl
        | cons c symbol => cases hFound
      subst hNothing
      change t = rest at hRest
      subst hRest
      exact exists_isComparedIn_of_readWordComparison hRead
    · rename_i symbol start hSome
      rcases Cursor.symbol?_eq_iff.mp hSome with
        ⟨run, rest, hRest, -, hNext, hFound, rfl⟩
      have hRun : run = symbol := by
        split_ifs at hFound
        exact (Option.some.inj hFound).symm
      subst hRun
      split at hRead
      · cases hRead
      · rename_i comparison hSymbol
        exact
          ⟨[],
            .operator comparison run rest p hRest (.symbol hSymbol hNext)
              (readRight_eq_ok_iff.mp hRead)⟩
  · rintro ⟨parts, hCompared⟩
    cases hCompared with
    | operator comparison operator right p hText hOperator hRight =>
        rw [hText]
        cases hOperator with
        | symbol hFound hEnds =>
            rcases isSymbol_of_ofSymbol? hFound with ⟨hSymbol, hSome⟩
            rw [readComparison_symbol hFound hSymbol hSome hEnds]
            exact readRight_eq_ok_iff.mpr hRight
        | word hFound hEnds =>
            rcases isLetters_of_ofWord? hFound with ⟨hWord, hIs, hIn⟩
            rw [readComparison_word hWord hEnds, if_neg hIs, if_neg hIn,
              hFound]
            exact readRight_eq_ok_iff.mpr hRight
    | test comparison spelled behind hText hTest hSpells hBehind =>
        rw [spelling_words_test hTest] at hSpells
        rcases hSpells with ⟨word, following, rfl, hIs, hFollowing⟩
        have hEnds :=
          Text.endsAfter_append (Text.endsAfter_of_spellsAfter hFollowing)
            (Text.endsAfter_of_isBlank hBehind)
        have hNext := Text.head?_of_endsAfter hEnds
        have hWord := Text.isLetters_of_sameWord hIs (by decide)
        rw [hText, List.append_assoc, readComparison_word hWord hNext,
          if_pos hIs, readNullTest_eq_ok_iff hNext]
        exact
          ⟨comparison, following, behind, hTest, rfl, hFollowing, hBehind,
            rfl⟩
    | list word space interior behind _ hText hIn hSpace hInterior
        hPieces hBehind =>
        have hNext :=
          Text.head?_of_endsAfter
            (Text.endsAfter_open (interior ++ ')' :: behind) hSpace)
        have hWord := Text.isLetters_of_sameWord hIn (by decide)
        have hIs : ¬ Text.SameWord word "IS".toList := fun h =>
          absurd (hIn.symm.trans h) (by decide)
        rw [hText, readComparison_word hWord hNext, if_neg hIs, if_pos hIn,
          readList_eq_ok_iff]
        exact
          ⟨space, interior, behind, parts, rfl, hSpace, hInterior, hPieces,
            hBehind, rfl⟩

end Predicate

end SqlSelect
