import SqlSelect.Item.Reading
import SqlSelect.Proofs.Cursor.Position

/-
  No position leaves its text. Cursors and ranges stand on
  the boundaries of characters, in order, and every function
  that takes a part out of a text takes it from a range that
  lies in the text. The bounds of these ranges are sums and
  differences of bytes, so that a character of more than one
  byte next to one of them would be cut in two if a bound
  were not what is claimed here.

  Main statements:
    * `Name.cuts_inner`
    * `Name.exists_cuts_qualified`
    * `Text.exists_cuts_enclosed?`
    * `Text.exists_cuts_call?`
    * `Predicate.exists_cuts_parameterStart?`
    * `Text.MovesSafely`
    * `Text.RangesSafely`
    * `Text.SlicesSafely`
    * `Text.positions_safe`
-/

namespace SqlSelect

------------------------------------------------------------
-- Names
------------------------------------------------------------

namespace Name

/- A text of two bytes that begins with one has two characters. -/
theorem two_le_length
    {q : Char}
    {t : Text}
    (hByte : q.utf8Size = 1)
    (hSize : 2 ≤ Text.byteSize t)
    (hFirst : t.head? = some q) :
    2 ≤ t.length := by
  rcases t with _ | ⟨c, _ | ⟨d, rest⟩⟩
  · cases hFirst
  · cases hFirst
    simp [hByte] at hSize
  · simp

/-
  A text between two characters of one byte is what is left
  without a byte at either end.
-/
theorem cuts_inner
    {q : Char}
    {t : Text}
    (hByte : q.utf8Size = 1)
    (hSize : 2 ≤ Text.byteSize t)
    (hFirst : t.head? = some q)
    (hLast : t.getLast? = some q) :
    Range.Cuts ⟨1, Text.byteSize t - 1⟩ t (Text.inner t) := by
  cases t with
  | nil => cases hFirst
  | cons c rest =>
      have hHead : c = q := Option.some.inj hFirst
      subst hHead
      rcases List.eq_nil_or_concat rest with rfl | ⟨middle, d, rfl⟩
      · simp [hByte] at hSize
      · have hEnd : d = c := by
          simpa [List.getLast?_cons] using hLast
        subst hEnd
        have hSplit : d :: middle.concat d = [d] ++ middle ++ [d] := by
          simp
        have hCuts := Range.cuts_of_append hSplit
        simpa [Text.inner, hByte, Nat.add_comm] using hCuts

theorem unquote_of_enclosed
    {q : Char}
    {t : Text}
    (hQuote : q = '"' ∨ q = '\x60')
    (hEnclosed : IsEnclosed q (Text.trim t)) :
    unquote t = Text.undouble q (Text.inner (Text.trim t)) := by
  rw [unquote]
  rcases hQuote with rfl | rfl
  · rw [if_pos hEnclosed]
  · rw [if_neg, if_pos hEnclosed]
    intro hOther
    have hSame := hEnclosed.2.1.symm.trans hOther.2.1
    exact absurd hSame (by decide)

/-
  The two parts of a qualified name are what is in front of
  the byte of the point, and what is behind that byte.
-/
theorem exists_cuts_qualified
    {t qualifier name : Text}
    (hRead : qualified t = .ok (some qualifier, name)) :
    ∃ point front behind,
      Range.Cuts ⟨0, point⟩ (Text.trim t) front ∧
        Range.Cuts ⟨point, point + 1⟩ (Text.trim t) ['.'] ∧
        Range.Cuts ⟨point + 1, Text.byteSize (Text.trim t)⟩
          (Text.trim t) behind ∧
        qualifier = unquote front ∧ name = unquote behind := by
  let s := Cursor.ofText (Text.trim t)
  let stop := Stop.atTop (fun c => c == '.') none 0 s.rest
  let after : Cursor := { s with rest := stop.rest, depth := stop.depth }
  rcases
    Stop.exists_run_atTop (fun c => c == '.') Nesting.outside s.rest
    with ⟨front, m, hRest, -, -, -, hReached⟩
  change s.rest = front ++ after.rest at hRest
  change stop.reached = true → _ ∧ Stop.Halts _ after.rest at hReached
  rcases map_eq_ok_iff.mp hRead with ⟨_, hOk, hNames⟩
  change (if stop.reached = true then Except.ok () else _) = _ at hOk
  split_ifs at hOk with hThere
  split at hNames
  · -- Without a point there is no qualifier.
    cases hNames
  · rename_i c behind hNext
    change after.rest = c :: behind at hNext
    have hChar : c = '.' := by
      have hHalts := (hReached hThere).2
      rw [hNext] at hHalts
      rcases hHalts with hNone | ⟨d, rest, hSame, -, hPoint⟩
      · cases hNone
      · cases hSame
        exact eq_of_beq hPoint
    subst hChar
    rcases Prod.mk.inj hNames with ⟨hQualifier, rfl⟩
    have hFront : qualifier = unquote front :=
      (Option.some.inj hQualifier).symm.trans
        (congrArg unquote (Cursor.since_of_append hRest))
    have hText : Text.trim t = front ++ ['.'] ++ behind := by
      change s.rest = _
      rw [hRest, hNext, List.append_assoc]
      rfl
    have hByte : Char.utf8Size '.' = 1 := by decide
    refine
      ⟨Text.byteSize front, front, behind, ?_, ?_, ?_, hFront, rfl⟩
    · exact
        Range.cuts_front
          ⟨['.'] ++ behind, by rw [hText, List.append_assoc]⟩
    · have hCuts := Range.cuts_of_append hText
      simpa [hByte] using hCuts
    · have hCuts := Range.cuts_behind (front ++ ['.']) behind
      rw [← hText] at hCuts
      simpa [hByte] using hCuts

end Name

------------------------------------------------------------
-- Groups
------------------------------------------------------------

namespace Cursor

variable {t : Text}
variable {s : Cursor}

/-
  A group that is looked for behind blanks: the text between
  its parentheses is a range of the text.
-/
theorem exists_cuts_atChar
    {opening after : Cursor}
    (hStands : StandsIn t s)
    (hOpens : s.atChar '(' = (true, opening))
    (hPassed : opening.passGroup = (.ok (), after)) :
    ∃ interior,
      opening.group = .ok (interior, after) ∧
        Range.Cuts ⟨opening.position + 1, after.position - 1⟩ t
          interior := by
  rcases Prod.mk.inj hOpens with ⟨hNext, rfl⟩
  exact
    exists_cuts_group
      ((precedes_skipWhile isBlank s).standsIn hStands)
      (eq_of_beq hNext) hPassed

end Cursor

/- What a text encloses is all of it but a byte at either end. -/
theorem Text.exists_cuts_enclosed?
    {t interior : Text}
    (hEnclosed : enclosed? t = .ok (some interior)) :
    ∃ after,
      (Cursor.ofText t).passGroup = (.ok (), after) ∧
        Range.Cuts ⟨1, after.position - 1⟩ t interior := by
  rw [enclosed?] at hEnclosed
  split_ifs at hEnclosed with hOpens
  · rcases map_eq_ok_iff.mp hEnclosed with
      ⟨⟨found, after⟩, hGroup, hBlank⟩
    have hPassed := Cursor.passGroup_of_group hGroup
    rcases Cursor.exists_cuts_group (Cursor.standsIn_ofText t) hOpens
        hPassed with ⟨between, hBetween, hCuts⟩
    rw [hGroup] at hBetween
    cases hBetween
    dsimp only at hBlank
    split_ifs at hBlank
    cases hBlank
    rw [Cursor.position_ofText] at hCuts
    exact ⟨after, hPassed, hCuts⟩
  · cases hEnclosed

/- The name of a call and what is between its parentheses. -/
theorem Text.exists_cuts_call?
    {t name interior : Text}
    (hCall : call? t = .ok (some (name, interior))) :
    ∃ afterName opening after,
      (Cursor.ofText t).word = (name, afterName) ∧
        afterName.atChar '(' = (true, opening) ∧
        opening.passGroup = (.ok (), after) ∧
        Range.Cuts ⟨0, afterName.position⟩ t name ∧
        Range.Cuts ⟨opening.position + 1, after.position - 1⟩ t
          interior := by
  let afterName := (Cursor.ofText t).word.2
  let opening := (afterName.atChar '(').2
  have hName : Cursor.StandsIn t afterName :=
    (Cursor.precedes_skipWhile isNameChar _).standsIn
      (Cursor.standsIn_ofText t)
  change
    (if (Cursor.ofText t).word.1.isEmpty = false ∧
          (afterName.atChar '(').1 = true then
        opening.group.map fun found =>
          if IsBlank found.2.rest then
            some ((Cursor.ofText t).word.1, found.1)
          else none
      else .ok none) = _ at hCall
  split_ifs at hCall with hOpens
  · rcases map_eq_ok_iff.mp hCall with ⟨⟨found, after⟩, hGroup, hBlank⟩
    have hPassed := Cursor.passGroup_of_group hGroup
    have hOpening : afterName.atChar '(' = (true, opening) :=
      Prod.ext hOpens.2 rfl
    rcases Cursor.exists_cuts_atChar hName hOpening hPassed with
      ⟨between, hBetween, hCuts⟩
    rw [hGroup] at hBetween
    cases hBetween
    dsimp only at hBlank
    split_ifs at hBlank
    cases hBlank
    refine
      ⟨afterName, opening, after, rfl, hOpening, hPassed, ?_, hCuts⟩
    have hWord :=
      Cursor.cuts_since (Cursor.standsIn_ofText t)
        (Cursor.precedes_skipWhile isNameChar _)
    rwa [Cursor.position_ofText] at hWord
  · cases hCall

/- The parentheses behind the word that a parameter begins with. -/
theorem Predicate.exists_cuts_parameterStart?
    {t : Text}
    {s after : Cursor}
    (hStart : parameterStart? t = some s)
    (hPassed : s.passGroup = (.ok (), after)) :
    ∃ interior,
      s.group = .ok (interior, after) ∧
        Range.Cuts ⟨s.position + 1, after.position - 1⟩ t interior := by
  let afterWord := (Cursor.ofText t).word.2
  have hWord : Cursor.StandsIn t afterWord :=
    (Cursor.precedes_skipWhile isNameChar _).standsIn
      (Cursor.standsIn_ofText t)
  change
    (if Text.SameWord (Cursor.ofText t).word.1 "PARAMETER".toList ∧
          (afterWord.atChar '(').1 = true then
        some (afterWord.atChar '(').2
      else none) = _ at hStart
  split_ifs at hStart with hOpens
  cases hStart
  exact Cursor.exists_cuts_atChar hWord (Prod.ext hOpens.2 rfl) hPassed

------------------------------------------------------------
-- Safe Positions
------------------------------------------------------------

namespace Text

/-
  A row of steps from the start of the text, of which any may
  fail: every place of the row is a boundary of the text, the
  places are in order with the text between them, and at each
  of them a step changes the depth by the groups it goes over,
  which it never takes below zero, or not at all.
-/
structure MovesSafely
    (t : Text)
    (steps : List Move) : Prop where
  inside :
    ∀ s ∈ (Cursor.ofText t).places steps,
      s.input = t ∧ t.IsBoundary s.position ∧ s.position ≤ byteSize t
  forward :
    ((Cursor.ofText t).places steps).Pairwise fun s later =>
      s.position ≤ later.position ∧
        Range.Cuts ⟨s.position, later.position⟩ t (Cursor.since s later)
  counted :
    ∀ s ∈ (Cursor.ofText t).places steps, ∀ step : Move,
      step.countsGroups = true → s.Counts (s.move step).2
  kept :
    ∀ s ∈ (Cursor.ofText t).places steps, ∀ step : Move,
      step.countsGroups = false → (s.move step).2.depth = s.depth
  found :
    ∀ s ∈ (Cursor.ofText t).places steps, ∀ byte c after,
      s.nextTop = (.ok (some (byte, c)), after) →
        s.position ≤ byte ∧ Range.Cuts ⟨byte, after.position⟩ t [c]

theorem movesSafely
    (t : Text)
    (steps : List Move) :
    MovesSafely t steps where
  inside s hMem := by
    have hStands := Cursor.standsIn_of_mem_places hMem
    exact ⟨hStands.input, hStands.isBoundary⟩
  forward := by
    have hPairs := Cursor.pairwise_places (Cursor.ofText t) steps
    refine hPairs.imp_of_mem ?_
    intro s later hMem _ hPrecedes
    exact
      ⟨hPrecedes.position_le,
        Cursor.cuts_since (Cursor.standsIn_of_mem_places hMem) hPrecedes⟩
  counted s _ _ hCounts := Cursor.counts_move s hCounts
  kept s _ _ hOther := Cursor.depth_move s hOther
  found _ hMem _ _ _ hFound :=
    Cursor.cuts_nextTop (Cursor.standsIn_of_mem_places hMem) hFound

/- Places and depths are counted past characters of more than one byte. -/
example :
    ((Cursor.ofText "é(ü".toList).places [.nextTop, .passGroup, .next]).map
        (fun s => (s.position, s.depth)) =
      [(0, 0), (2, 0), (5, 1), (5, 1)] := by
  decide

/- The ranges that are found in the text are in order in it. -/
structure RangesSafely
    (t : Text) : Prop where
  keywords :
    ∀ keyword ranges,
      keywordRanges keyword t = .ok ranges → Range.InOrder t ranges
  words :
    ∀ w, topWords t = .ok w →
      Range.InOrder t w.ranges ∧
        List.Forall₂ (fun r word => Range.Cuts r t word) w.ranges w.words

theorem rangesSafely
    (t : Text) :
    RangesSafely t where
  keywords _ _ hRanges := inOrder_keywordRanges hRanges
  words _ hWords := inOrder_topWords hWords

/-
  What is taken out of the text is taken from a range in it:
  the pieces between keywords and separators, the section
  behind a keyword, the text through a word, the parts of a
  qualified name, the name between quotes, and what is in the
  parentheses of a group, a parameter, a list and a call.
-/
structure SlicesSafely
    (t : Text) : Prop where
  atKeyword :
    ∀ keyword pieces, splitAtKeyword keyword t = .ok pieces →
      ∃ ranges,
        keywordRanges keyword t = .ok ranges ∧
          List.Forall₂ (fun r piece => Range.Cuts r t piece)
            (Range.gaps 0 (byteSize t) ranges) pieces
  atSeparator :
    ∀ separator pieces, splitTop separator t = .ok pieces →
      ∃ ranges,
        Range.InOrder t ranges ∧
          (∀ r ∈ ranges, Range.Cuts r t [separator]) ∧
          List.Forall₂ (fun r piece => Range.Cuts r t piece)
            (Range.gaps 0 (byteSize t) ranges) pieces
  clause :
    ∀ opening closing found, section? opening closing t = .ok found →
      firstKeyword opening t = .ok none ∧ found = none ∨
        ∃ r rest firsts front,
          firstKeyword opening t = .ok (some r) ∧
            Range.Cuts ⟨r.stop, byteSize t⟩ t rest ∧
            closing.mapM (fun keyword => firstKeyword keyword rest) =
              .ok firsts ∧
            Range.Cuts ⟨0, Range.firstStart (byteSize rest) firsts⟩ rest
              front ∧
            found = nonblank? front
  throughWord :
    ∀ w i r, topWords t = .ok w → w.ranges[i]? = some r →
      Range.Cuts ⟨0, r.stop⟩ t (w.through (i + 1))
  qualified :
    ∀ qualifier name, Name.qualified t = .ok (some qualifier, name) →
      ∃ point front behind,
        Range.Cuts ⟨0, point⟩ (trim t) front ∧
          Range.Cuts ⟨point, point + 1⟩ (trim t) ['.'] ∧
          Range.Cuts ⟨point + 1, byteSize (trim t)⟩ (trim t) behind ∧
          qualifier = Name.unquote front ∧ name = Name.unquote behind
  unquoted :
    ∀ q, q = '"' ∨ q = '\x60' → 2 ≤ byteSize (trim t) →
      (trim t).head? = some q → (trim t).getLast? = some q →
        Range.Cuts ⟨1, byteSize (trim t) - 1⟩ (trim t)
            (inner (trim t)) ∧
          Name.unquote t = undouble q (inner (trim t))
  enclosed :
    ∀ interior, enclosed? t = .ok (some interior) →
      ∃ after,
        (Cursor.ofText t).passGroup = (.ok (), after) ∧
          Range.Cuts ⟨1, after.position - 1⟩ t interior
  parameter :
    ∀ s after, Predicate.parameterStart? t = some s →
      s.passGroup = (.ok (), after) →
        ∃ interior,
          s.group = .ok (interior, after) ∧
            Range.Cuts ⟨s.position + 1, after.position - 1⟩ t interior
  list :
    ∀ steps, ∀ s ∈ (Cursor.ofText t).places steps, ∀ opening after,
      s.atChar '(' = (true, opening) →
      opening.passGroup = (.ok (), after) →
        ∃ interior,
          opening.group = .ok (interior, after) ∧
            Range.Cuts ⟨opening.position + 1, after.position - 1⟩ t
              interior
  call :
    ∀ name interior, call? t = .ok (some (name, interior)) →
      ∃ afterName opening after,
        (Cursor.ofText t).word = (name, afterName) ∧
          afterName.atChar '(' = (true, opening) ∧
          opening.passGroup = (.ok (), after) ∧
          Range.Cuts ⟨0, afterName.position⟩ t name ∧
          Range.Cuts ⟨opening.position + 1, after.position - 1⟩ t
            interior

theorem slicesSafely
    (t : Text) :
    SlicesSafely t where
  atKeyword _ _ hPieces := exists_gaps_splitAtKeyword hPieces
  atSeparator _ _ hPieces := exists_gaps_splitTop hPieces
  clause _ _ _ hSection := exists_clause_section? hSection
  throughWord _ _ _ hWords hRange := cuts_through hWords hRange
  qualified _ _ hRead := Name.exists_cuts_qualified hRead
  unquoted q hQuote hSize hFirst hLast := by
    have hByte : q.utf8Size = 1 := by
      rcases hQuote with rfl | rfl <;> decide
    have hEnclosed : Name.IsEnclosed q (trim t) :=
      ⟨Name.two_le_length hByte hSize hFirst, hFirst, hLast⟩
    exact
      ⟨Name.cuts_inner hByte hSize hFirst hLast,
        Name.unquote_of_enclosed hQuote hEnclosed⟩
  enclosed _ hEnclosed := exists_cuts_enclosed? hEnclosed
  parameter _ _ hStart hPassed :=
    Predicate.exists_cuts_parameterStart? hStart hPassed
  list _ _ hMem _ _ hOpens hPassed :=
    Cursor.exists_cuts_atChar (Cursor.standsIn_of_mem_places hMem) hOpens
      hPassed
  call _ _ hCall := exists_cuts_call? hCall

/-
  In every text, all positions are safe: those of steps of a
  cursor, those of ranges, and those that slices begin and
  end at.
-/
theorem positions_safe
    (t : Text) :
    (∀ steps : List Move, MovesSafely t steps) ∧
      RangesSafely t ∧ SlicesSafely t :=
  ⟨movesSafely t, rangesSafely t, slicesSafely t⟩

end Text

end SqlSelect
