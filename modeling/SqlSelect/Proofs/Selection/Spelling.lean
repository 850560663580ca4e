import SqlSelect.Proofs.Selection.Calls
import SqlSelect.Proofs.Text.Folding

/-
  References and calls in other letters. A text is divided
  into its qualifier and name, and into the name and argument
  of a call, at the same places in any letter case, and what
  stands there differs in letter case only.

  Main statements:
    * `Stop.atTop_foldCase`
    * `Name.qualified_foldCase`
    * `Cursor.isSome_afterKeyword?_of_sameWord`
    * `Item.splitDistinct_foldCase`
    * `Text.IsCall.of_sameWord`
    * `Text.IsCall.call?_eq`
-/

namespace SqlSelect

------------------------------------------------------------
-- Walks
------------------------------------------------------------

/- A walk to the top level gets to the same place. -/
theorem Stop.atTop_foldCase
    (halt : Char → Bool)
    (hHalt : ∀ c : Char, halt c.toLower = halt c)
    (closer : Option Char)
    (hPlain : ∀ q, closer = some q → q.isAlpha = false)
    (depth : Nat)
    (t : Text) :
    atTop halt closer depth (Text.foldCase t) =
      { atTop halt closer depth t with
        rest := Text.foldCase (atTop halt closer depth t).rest } := by
  induction t generalizing closer depth with
  | nil => cases closer <;> cases depth <;> rfl
  | cons c t ih =>
      have hNone :
          ∀ q, (none : Option Char) = some q → q.isAlpha = false := by
        simp
      rw [Text.foldCase_cons]
      cases closer with
      | some q =>
          have hClose := toLower_eq_iff (c := c) (hPlain q rfl)
          simp only [atTop, hClose]
          split_ifs
          · exact ih none hNone depth
          · exact ih (some q) hPlain depth
      | none =>
          have hOpen := toLower_eq_iff (c := c) (q := '(') (by decide)
          have hShut := toLower_eq_iff (c := c) (q := ')') (by decide)
          rw [atTop_none_cons, atTop_none_cons]
          simp only [Text.closerOf?_toLower, hOpen, hShut, hHalt]
          cases hCloses : closerOf? c with
          | some q =>
              have hLater : ∀ p, some q = some p → p.isAlpha = false := by
                rintro p hEq
                cases hEq
                exact isAlpha_eq_false_of_closerOf? hCloses
              exact ih (some q) hLater depth
          | none =>
              simp only
              split_ifs
              · exact ih none hNone _
              · cases depth with
                | zero => rfl
                | succ fewer => exact ih none hNone fewer
              · rfl
              · exact ih none hNone depth

------------------------------------------------------------
-- Names
------------------------------------------------------------

namespace Name

/- Where the walk to the first point of a text stops. -/
def pointStop
    (t : Text) : Stop :=
  Stop.atTop (fun c => c == '.') none 0 (Text.trim t)

theorem pointStop_foldCase
    (t : Text) :
    pointStop (Text.foldCase t) =
      { pointStop t with rest := Text.foldCase (pointStop t).rest } := by
  have hHalt (c : Char) : (c.toLower == '.') = (c == '.') := by
    rw [Bool.eq_iff_iff, beq_iff_eq, beq_iff_eq,
      toLower_eq_iff (by decide)]
  rw [pointStop, pointStop, ← Text.foldCase_trim,
    Stop.atTop_foldCase _ hHalt none (by simp)]

/- The parts of a name are cut at the point that the walk finds. -/
theorem qualified_eq_ok_iff
    {t : Text}
    {parts : Option Text × Text} :
    qualified t = .ok parts ↔
      (pointStop t).reached = true ∧
        parts =
          match (pointStop t).rest with
          | [] => (none, unquote (Text.trim t))
          | _ :: name =>
              ( some
                  (unquote
                    ((Text.trim t).take
                      ((Text.trim t).length -
                        (pointStop t).rest.length)))
              , unquote name ) := by
  rw [qualified]
  change Except.map _ (if (pointStop t).reached = true then _ else _) = _ ↔ _
  by_cases hReached : (pointStop t).reached = true
  · simp only [hReached, if_true, true_and]
    constructor
    · intro hRead
      exact (Except.ok.inj hRead).symm
    · rintro rfl
      rfl
  · simp [Except.map, hReached]

/- The parts of a name in small letters are in small letters. -/
theorem qualified_foldCase
    {t name : Text}
    {qualifier : Option Text}
    (hRead : qualified t = .ok (qualifier, name)) :
    qualified (Text.foldCase t) =
      .ok (qualifier.map Text.foldCase, Text.foldCase name) := by
  rw [qualified_eq_ok_iff] at hRead ⊢
  rcases hRead with ⟨hReached, hParts⟩
  simp only [pointStop_foldCase, ← Text.foldCase_trim,
    Text.length_foldCase, ← Text.foldCase_take, ← foldCase_unquote]
  refine ⟨hReached, ?_⟩
  cases hRest : (pointStop t).rest with
  | nil =>
      rw [hRest] at hParts
      cases hParts
      rfl
  | cons c behind =>
      rw [hRest] at hParts
      cases hParts
      simp only [Text.foldCase_cons, foldCase_unquote, Option.map_some]

/- The same text in other letters has the parts in other letters. -/
theorem sameWord_of_qualified
    {s t name : Text}
    {qualifier : Option Text}
    (hSame : Text.SameWord s t)
    (hRead : qualified t = .ok (qualifier, name))
    {name' : Text}
    {qualifier' : Option Text}
    (hRead' : qualified s = .ok (qualifier', name')) :
    qualifier'.map Text.foldCase = qualifier.map Text.foldCase ∧
      Text.SameWord name' name := by
  have hFold := qualified_foldCase hRead
  rw [← hSame, qualified_foldCase hRead', Except.ok.injEq,
    Prod.mk.injEq] at hFold
  exact hFold

end Name

------------------------------------------------------------
-- Keywords
------------------------------------------------------------

theorem followingLength?_foldCase
    (words : List Text)
    (t : Text) :
    followingLength? words (Text.foldCase t) =
      followingLength? words t := by
  induction words generalizing t with
  | nil => rfl
  | cons word words ih =>
      have hGap :
          ((Text.foldCase t).takeWhile isBlank).length =
            (t.takeWhile isBlank).length := by
        rw [← Text.foldCase_takeWhile isBlank_toLower,
          Text.length_foldCase]
      simp only [followingLength?, hGap, ← Text.foldCase_drop,
        Text.startsWord_foldCase, ih]

/- A keyword takes as much of a text in any letter case. -/
theorem delimitedLength?_foldCase
    (words : List Text)
    (t : Text) :
    delimitedLength? words (Text.foldCase t) =
      delimitedLength? words t := by
  have hLength :
      keywordLength? words (Text.foldCase t) =
        keywordLength? words t := by
    cases words with
    | nil => rfl
    | cons word words =>
        simp only [keywordLength?, Text.startsWord_foldCase,
          ← Text.foldCase_drop, followingLength?_foldCase]
  have hEnds (u : Text) : EndsAfter (Text.foldCase u) ↔ EndsAfter u := by
    cases u with
    | nil => rfl
    | cons c u =>
        have hOpen := toLower_eq_iff (c := c) (q := '(') (by decide)
        simp [EndsAfter, isBlank_toLower, hOpen]
  simp only [delimitedLength?, hLength, ← Text.foldCase_drop, hEnds]

/- What is left behind a keyword is left in small letters. -/
theorem Cursor.rest_afterKeyword?_foldCase
    (keyword t : Text) :
    ((ofText (Text.foldCase t)).afterKeyword? keyword).map rest =
      ((ofText t).afterKeyword? keyword).map
        fun after => Text.foldCase after.rest := by
  simp only [afterKeyword?, skipBlanks, skipWhile, ofText,
    ← Text.foldCase_dropWhile isBlank_toLower, delimitedLength?_foldCase,
    Option.map_map, Function.comp_def, Text.foldCase_drop]

theorem Cursor.isSome_afterKeyword?_of_sameWord
    {s t : Text}
    (keyword : Text)
    (hSame : Text.SameWord s t) :
    ((ofText s).afterKeyword? keyword).isSome =
      ((ofText t).afterKeyword? keyword).isSome := by
  have hFold
      (u : Text) :
      ((ofText (Text.foldCase u)).afterKeyword? keyword).isSome =
        ((ofText u).afterKeyword? keyword).isSome := by
    simpa using
      congrArg Option.isSome (rest_afterKeyword?_foldCase keyword u)
  rw [← hFold s, hSame, hFold t]

/- A leading DISTINCT is split off in any letter case. -/
theorem Item.splitDistinct_foldCase
    (t : Text) :
    splitDistinct (Text.foldCase t) =
      ((splitDistinct t).1, Text.foldCase (splitDistinct t).2) := by
  have hRest :=
    Cursor.rest_afterKeyword?_foldCase "DISTINCT".toList t
  rw [splitDistinct, splitDistinct]
  cases hAfter : (Cursor.ofText t).afterKeyword? "DISTINCT".toList with
  | none =>
      simp only [hAfter, Option.map_none, Option.map_eq_none_iff] at hRest
      simp only [hRest]
  | some after =>
      simp only [hAfter, Option.map_some, Option.map_eq_some_iff] at hRest
      rcases hRest with ⟨after', hAfter', hText⟩
      simp only [hAfter', hText]

------------------------------------------------------------
-- Calls
------------------------------------------------------------

namespace Text.IsCall

variable {x name gap argument u : Text}

/- A call is one in any letter case. -/
theorem of_sameWord
    (hCall : IsCall x name gap argument)
    (hSame : SameWord u x) :
    ∃ name' gap' argument',
      IsCall u name' gap' argument' ∧ SameWord name' name ∧
        SameWord argument' argument := by
  rw [hCall.text] at hSame
  rcases exists_sameWord_append hSame with ⟨name', v, rfl, hName, hRest⟩
  rcases exists_sameWord_append hRest with ⟨gap', w, rfl, hGap, hGroup⟩
  rcases exists_sameWord_cons (by decide) hGroup with ⟨y, rfl, hInner⟩
  rcases exists_sameWord_append hInner
    with ⟨argument', z, rfl, hArgument, hClose⟩
  have hLast : z = [')'] := eq_of_sameWord hClose (by simp)
  subst hLast
  refine
    ⟨name', gap', argument', ⟨rfl, ?_, ?_, ?_, ?_⟩, hName, hArgument⟩
  · rintro rfl
    have hLength := length_eq_of_sameWord hName
    exact hCall.nonempty (List.length_eq_zero_iff.mp hLength.symm)
  · intro c hMem
    have hIn : c.toLower ∈ foldCase name := by
      rw [← hName]
      exact List.mem_map_of_mem hMem
    rcases List.mem_map.mp hIn with ⟨d, hOther, hLower⟩
    rw [← isNameChar_toLower, ← hLower, isNameChar_toLower]
    exact hCall.names d hOther
  · exact isBlank_of_sameWord hGap hCall.blank
  · exact balanced_of_sameWord hArgument hCall.balanced

/- A text of this shape is read as a call. -/
theorem call?_eq
    (hCall : IsCall x name gap argument) :
    call? x = .ok (some (name, argument)) := by
  have hWord : x.takeWhile isNameChar = name := hCall.leadingWord_eq
  have hBehind :
      trimStart (x.dropWhile isNameChar) = '(' :: (argument ++ [')']) := by
    have hText := List.takeWhile_append_dropWhile (p := isNameChar) (l := x)
    rw [hWord] at hText
    rw [List.append_cancel_left (hText.trans hCall.text),
      trimStart_append _ hCall.blank, trimStart_of_head]
    rfl
  have hStart :
      ((Cursor.ofText x).word.2.atChar '(').2 =
        ⟨x, '(' :: (argument ++ ')' :: []), 0⟩ := by
    rw [Cursor.word_eq]
    exact congrArg (fun rest => (⟨x, rest, 0⟩ : Cursor)) hBehind
  have hOpens : ((Cursor.ofText x).word.2.atChar '(').1 = true := by
    have hNext :
        ((Cursor.ofText x).word.2.atChar '(').2.next? = some '(' := by
      rw [hStart]
      rfl
    simpa [Cursor.atChar] using hNext
  have hName : (Cursor.ofText x).word.1 = name := by
    rw [Cursor.word_eq]
    exact hWord
  have hGroup :=
    Cursor.group_eq (s := ⟨x, '(' :: (argument ++ ')' :: []), 0⟩) rfl
      hCall.balanced
  have hSome := hCall.nonempty
  simp only [call?, hName, hOpens, hStart, hGroup]
  simp [hSome, Except.map, IsBlank]

end Text.IsCall

end SqlSelect
