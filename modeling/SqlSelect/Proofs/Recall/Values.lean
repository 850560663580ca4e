import SqlSelect.Proofs.Condition.Grammar

/-
  Values of lists, and the one text that a list is kept as.
  From a text to its values and back nothing is lost, and a
  list in writing is read back with its text. The other way
  round a value that ends in a backslash runs into the next
  one, since the backslash comes to stand in front of the
  semicolon between the two.

  Main statements:
    * `ValueList.runTogether`
    * `ValueList.decode_encode`
    * `ValueList.runTogether_eq_self_iff`
    * `Predicate.IsListText`
    * `Predicate.exists_listedIn_of_ofText`
    * `Condition.listValues?_of_ofText`
    * `Condition.ofText_written_atom_iff`
    * `Condition.rightText_of_ofText_written`
-/

namespace SqlSelect

------------------------------------------------------------
-- Values That Run Together
------------------------------------------------------------

namespace ValueList

/- Put a text in front of the first of some values. -/
def pushText
    (front : Text)
    (values : List Text) : List Text :=
  front.foldr Text.pushFront values

/-
  What is left of some values in one text. A value that ends
  in a backslash runs into the next one, with a semicolon in
  the place of the backslash.
-/
def runTogether : List Text → List Text
  | [] => [[]]
  | [value] => [value]
  | value :: next :: rest =>
      if value.getLast? = some '\\' then
        pushText (value.dropLast ++ [';']) (runTogether (next :: rest))
      else value :: runTogether (next :: rest)

theorem pushText_cons
    (c : Char)
    (front : Text)
    (values : List Text) :
    pushText (c :: front) values =
      Text.pushFront c (pushText front values) := rfl

theorem length_pushText
    (front : Text)
    {values : List Text}
    (hSome : values ≠ []) :
    (pushText front values).length = values.length := by
  induction front with
  | nil => rfl
  | cons c front ih =>
      rw [pushText_cons, ← ih]
      cases hPushed : pushText front values with
      | nil =>
          rw [hPushed] at ih
          exact absurd (List.length_eq_zero_iff.mp ih.symm) hSome
      | cons value rest => rfl

variable {c : Char}

/- A semicolon behind no backslash ends a value. -/
theorem decode_semicolon
    (t : Text) :
    decode (';' :: t) = [] :: decode t := by
  cases t with
  | nil => rfl
  | cons d t =>
      have hOther : ¬ (';' = '\\' ∧ d = ';') :=
        fun h => absurd h.1 (by decide)
      rw [decode, if_neg hOther, if_pos rfl]

/- Any other character belongs to the value that is next. -/
theorem decode_cons
    {t : Text}
    (hOther : c ≠ ';')
    (hEscape : ¬ (c = '\\' ∧ t.head? = some ';')) :
    decode (c :: t) = Text.pushFront c (decode t) := by
  cases t with
  | nil => exact if_neg hOther
  | cons d t =>
      have hNot : ¬ (c = '\\' ∧ d = ';') := by
        simpa using hEscape
      rw [decode, if_neg hNot, if_neg hOther]

theorem head?_escape_ne
    (value : Text) :
    (escape value).head? ≠ some ';' := by
  cases value with
  | nil => simp [escape]
  | cons c value =>
      rw [escape]
      split
      · simp
      · simpa using ‹_›

theorem decode_escape
    (value : Text) :
    decode (escape value) = [value] := by
  induction value with
  | nil => rfl
  | cons c value ih =>
      rw [escape]
      split
      · rename_i hSemicolon
        rw [hSemicolon, decode, if_pos ⟨rfl, rfl⟩, ih]
        rfl
      · rename_i hOther
        rw [decode_cons hOther fun h => head?_escape_ne value h.2, ih]
        rfl

/- A character of a value, unless it is a backslash at its end. -/
theorem decode_escape_cons_append
    {value : Text}
    (hInside : ¬ (c = '\\' ∧ value = []))
    (t : Text) :
    decode (escape (c :: value) ++ ';' :: t) =
      Text.pushFront c (decode (escape value ++ ';' :: t)) := by
  rw [escape]
  split
  · rename_i hSemicolon
    rw [hSemicolon]
    exact if_pos ⟨rfl, rfl⟩
  · rename_i hOther
    refine decode_cons hOther fun h => ?_
    cases value with
    | nil => exact hInside ⟨h.1, rfl⟩
    | cons d value =>
        have hSome : escape (d :: value) ≠ [] := by
          rw [escape]
          split <;> exact List.cons_ne_nil _ _
        have hHead :
            (escape (d :: value) ++ ';' :: t).head? =
              (escape (d :: value)).head? :=
          List.head?_append_of_ne_nil _ hSome
        exact head?_escape_ne _ (hHead.symm.trans h.2)

/-
  A value in front of a semicolon is told apart from what
  follows unless it ends in a backslash, by induction on the
  value.
-/
theorem decode_escape_append
    (value t : Text) :
    decode (escape value ++ ';' :: t) =
      if value.getLast? = some '\\' then
        pushText (value.dropLast ++ [';']) (decode t)
      else value :: decode t := by
  induction value with
  | nil => exact decode_semicolon t
  | cons c value ih =>
      by_cases hEnd : c = '\\' ∧ value = []
      · rcases hEnd with ⟨rfl, rfl⟩
        exact if_pos ⟨rfl, rfl⟩
      · rw [decode_escape_cons_append hEnd, ih]
        cases value with
        | nil =>
            have hLast : ¬ [c].getLast? = some '\\' := by
              simpa using hEnd
            rw [if_neg hLast]
            rfl
        | cons d value =>
            rw [List.getLast?_cons_cons, List.dropLast_cons_cons]
            split <;> rfl

theorem encode_cons_cons
    (value next : Text)
    (rest : List Text) :
    encode (value :: next :: rest) =
      escape value ++ ';' :: encode (next :: rest) := by
  simp [encode, Text.join]

/- What is read of the text of some values. -/
theorem decode_encode
    (values : List Text) :
    decode (encode values) = runTogether values := by
  fun_induction runTogether values with
  | case1 => rfl
  | case2 value => exact decode_escape value
  | case3 value next rest hLast ih =>
      rw [encode_cons_cons, decode_escape_append, if_pos hLast, ih]
  | case4 value next rest hLast ih =>
      rw [encode_cons_cons, decode_escape_append, if_neg hLast, ih]

/- A backslash hides each semicolon behind it in turn. -/
example :
    decode (encode ["a\\".toList, "b\\".toList, "c".toList]) =
      ["a;b;c".toList] := by
  decide

theorem runTogether_ne_nil
    (values : List Text) :
    runTogether values ≠ [] := by
  rw [← decode_encode]
  exact decode_ne_nil _

/- There are not more values than there were. -/
theorem length_runTogether_le
    {values : List Text}
    (hSome : values ≠ []) :
    (runTogether values).length ≤ values.length := by
  fun_induction runTogether values with
  | case1 => exact absurd rfl hSome
  | case2 value => exact Nat.le_refl _
  | case3 value next rest hLast ih =>
      have hRest := ih (List.cons_ne_nil _ _)
      rw [length_pushText _ (runTogether_ne_nil _), List.length_cons]
      omega
  | case4 value next rest hLast ih =>
      exact Nat.succ_le_succ (ih (List.cons_ne_nil _ _))

/- No value but the last ends in a backslash. -/
def KeptApart
    (values : List Text) : Prop :=
  ∀ value ∈ values.dropLast, value.getLast? ≠ some '\\'

instance
    (values : List Text) :
    Decidable (KeptApart values) := by
  unfold KeptApart
  infer_instance

theorem runTogether_eq_self_iff
    {values : List Text}
    (hSome : values ≠ []) :
    runTogether values = values ↔ KeptApart values := by
  fun_induction runTogether values with
  | case1 => exact absurd rfl hSome
  | case2 value => simp [KeptApart]
  | case3 value next rest hLast ih =>
      refine iff_of_false ?_ ?_
      · -- One value less is left.
        intro hSame
        have hLength := congrArg List.length hSame
        have hRest :=
          length_runTogether_le (List.cons_ne_nil next rest)
        rw [length_pushText _ (runTogether_ne_nil _), List.length_cons]
          at hLength
        omega
      · intro hApart
        exact hApart value List.mem_cons_self hLast
  | case4 value next rest hLast ih =>
      rw [List.cons.injEq, ih (List.cons_ne_nil _ _), KeptApart,
        KeptApart, List.dropLast_cons_cons, List.forall_mem_cons]
      simp [hLast]

end ValueList

------------------------------------------------------------
-- Lists in a Text
------------------------------------------------------------

/- There is a piece in front of the first separator at least. -/
theorem Text.ne_nil_of_splitTop
    {separator : Char}
    {t : Text}
    {pieces : List Text}
    (hPieces : splitTop separator t = .ok pieces) :
    pieces ≠ [] := by
  rcases map_eq_ok_iff.mp hPieces with ⟨marked, -, rfl⟩
  rw [ne_eq, List.map_eq_nil_iff]
  exact pieces_ne_nil _ marked

namespace Predicate

variable {env : Environment}
variable {left t : Text}
variable {p : Predicate}

/-
  The text is an operand, the word IN and a group with the
  interior given, apart from blanks.
-/
def IsListText
    (t operand interior : Text) : Prop :=
  ∃ lead gap word space behind,
    t =
        lead ++ operand ++ gap ++ word ++ space ++
          '(' :: (interior ++ ')' :: behind) ∧
      Text.SameWord word "IN".toList ∧
      Text.IsBlank lead ∧ Text.IsBlank gap ∧
      Text.IsBlank space ∧ Text.IsBlank behind

/-
  The predicate is read from the text, which is a list with
  these values between its commas, and keeps them in one text.
-/
structure ListedIn
    (env : Environment)
    (t : Text)
    (values : List Text)
    (p : Predicate) : Prop where
  read : ofText env t = .ok p
  text :
    ∃ operand interior pieces,
      IsListText t operand interior ∧
        env.fieldName operand = .ok p.left ∧
        Text.splitTop ',' interior = .ok pieces ∧
        values = pieces.map fun piece => Quoted.strip (Text.trim piece)
  kept : p.rightText = some (ValueList.encode values)

theorem IsRight.comparison_eq
    {comparison : Comparison}
    {right : Text}
    (hRight : IsRight env left comparison right p) :
    p.comparison = comparison := by
  cases hRight <;> rfl

theorem isBinary_of_isOperator
    {comparison : Comparison}
    {operator right : Text}
    (hOperator : comparison.IsOperator operator right) :
    comparison.isBinary = true := by
  cases hOperator with
  | symbol hFound _ => exact Comparison.isBinary_of_ofSymbol? hFound
  | word hFound _ => exact Comparison.isBinary_of_ofWord? hFound

/- A predicate with a list is listed in the text it is read from. -/
theorem exists_listedIn_of_ofText
    (hRead : ofText env t = .ok p)
    (hList : p.comparison = .inList) :
    ∃ values, values ≠ [] ∧ ListedIn env t values p := by
  rcases ofText_eq_ok_iff.mp hRead with ⟨parts, hParts⟩
  cases hParts with
  | parameter => cases hList
  | compared lead operand gap rest left parts p hText hOther hLead hOperand
      hGap hEnds hRest hField hCompared =>
      cases hCompared with
      | operator comparison operator right p hBehind hOperator hRight =>
          have hBinary := isBinary_of_isOperator hOperator
          rw [← hRight.comparison_eq, hList] at hBinary
          cases hBinary
      | test comparison spelled behind hBehind hTest =>
          rcases hTest with rfl | rfl <;> cases hList
      | list word space interior behind _ hBehind hWord hSpace hInterior
          hPieces hEnd =>
          have hWhole :
              t =
                lead ++ operand ++ gap ++ word ++ space ++
                  '(' :: (interior ++ ')' :: behind) := by
            rw [hText, hBehind]
            simp only [List.append_assoc]
          refine
            ⟨_, ?_, hRead,
              ⟨operand, interior, parts,
                ⟨lead, gap, word, space, behind, hWhole, hWord, hLead,
                  hGap, hSpace, hEnd⟩,
                hField, hPieces, rfl⟩,
              rfl⟩
          rw [ne_eq, List.map_eq_nil_iff]
          exact Text.ne_nil_of_splitTop hPieces

end Predicate

------------------------------------------------------------
-- Values That Are Read Back
------------------------------------------------------------

namespace Condition

/-
  Of values in one text the same values are read if and only
  if no value but the last ends in a backslash. So it is of
  every list in a condition: its values are told in the order
  in which they are written, but for those that run together.
-/
theorem listValues?_of_ofText
    {env : Environment}
    {t : Text}
    {c : Condition}
    {values : List Text}
    (hSome : values ≠ [])
    (hRead : ofText env t = .ok c) :
    (ValueList.decode (ValueList.encode values) =
          ValueList.runTogether values ∧
        (ValueList.decode (ValueList.encode values) = values ↔
          ValueList.KeptApart values)) ∧
      ∀ p ∈ c.predicates, p.comparison = .inList →
        ∃ part written,
          part <:+: t ∧ written ≠ [] ∧
            Predicate.ListedIn env part written p ∧
            p.listValues? = some (ValueList.runTogether written) ∧
            (p.listValues? = some written ↔
              ValueList.KeptApart written) := by
  have hAgain {list : List Text} (hList : list ≠ []) :
      ValueList.decode (ValueList.encode list) = list ↔
        ValueList.KeptApart list := by
    rw [ValueList.decode_encode]
    exact ValueList.runTogether_eq_self_iff hList
  refine ⟨⟨ValueList.decode_encode values, hAgain hSome⟩, ?_⟩
  intro p hMem hList
  rw [ofText] at hRead
  split_ifs at hRead
  · cases hRead
    exact absurd hMem List.not_mem_nil
  · rcases exists_ofText_of_readNested hRead p hMem with
      ⟨part, hInfix, hPredicate⟩
    rcases Predicate.exists_listedIn_of_ofText hPredicate hList with
      ⟨written, hWritten, hListed⟩
    have hValues :
        p.listValues? =
          some (ValueList.decode (ValueList.encode written)) := by
      rw [Predicate.listValues?, if_pos hList, hListed.kept]
      rfl
    refine ⟨part, written, hInfix, hWritten, hListed, ?_, ?_⟩
    · rw [hValues, ValueList.decode_encode]
    · rw [hValues, Option.some.injEq]
      exact hAgain hWritten

/-
  A backslash inside of a value does no harm, nor does one at
  the end of the last. In the condition the first value ends
  in one.
-/
theorem listValues?_of_ofText_backslashes :
    ValueList.decode
        (ValueList.encode ["a\\;".toList, "b\\".toList]) =
        ["a\\;".toList, "b\\".toList] ∧
      ∃ part written p,
        part <:+: "NOT A IN ('a\\', ' b') OR A = '1'".toList ∧
          Predicate.ListedIn (oneField "A".toList) part written p ∧
          p.listValues? = some (ValueList.runTogether written) := by
  let isIn : Predicate :=
    ⟨"A".toList, .inList, some "a\\; b".toList, none, none⟩
  let isOne : Predicate :=
    ⟨"A".toList, .eq, some "1".toList, none, some (.string "1".toList)⟩
  have hRead :
      ofText (oneField "A".toList)
          "NOT A IN ('a\\', ' b') OR A = '1'".toList =
        .ok
          (.group false .first
            [.atom true .first isIn, .atom false .or isOne]) := by
    decide +kernel
  rcases
    listValues?_of_ofText
      (List.cons_ne_nil "a\\;".toList ["b\\".toList]) hRead
    with ⟨⟨-, hValues⟩, hLists⟩
  rcases hLists isIn (by simp [predicates, predicatesOf]) rfl with
    ⟨part, written, hInfix, -, hListed, hTold, -⟩
  exact
    ⟨hValues.mpr (by decide), part, written, isIn, hInfix, hListed,
      hTold⟩

/-
  Not all values are told apart again: the backslash at the
  end of one hides the semicolon behind it.
-/
theorem not_forall_decode_encode :
    (¬ ∀ values : List Text, values ≠ [] →
        ValueList.decode (ValueList.encode values) = values) ∧
      ∃ p,
        ofText (oneField "A".toList) "A IN ('a\\', 'b')".toList =
            .ok (.atom false .first p) ∧
          p.comparison = .inList ∧
          p.listValues? = some ["a;b".toList] := by
  constructor
  · intro hAll
    exact
      absurd (hAll ["a\\".toList, "b".toList] (List.cons_ne_nil _ _))
        (by decide)
  · exact
      ⟨⟨"A".toList, .inList, some "a\\;b".toList, none, none⟩,
        by decide +kernel, rfl, by decide⟩

------------------------------------------------------------
-- Texts That Are Read Back
------------------------------------------------------------

variable {env : Environment}
variable {p : Predicate}

theorem isNested_atom
    (levels : Nat)
    (hShaped : p.IsShaped) :
    IsNested (levels + 1) (.atom false .first p) := by
  refine ⟨[[.atom false .first p]], rfl, List.cons_ne_nil _ _, ?_⟩
  intro row hRow
  rw [List.mem_singleton.mp hRow]
  refine ⟨List.cons_ne_nil _ _, fun u hUnit => ?_⟩
  rw [List.mem_singleton.mp hUnit]
  exact .atom false p hShaped

/- A predicate on its own is read back if it is recalled. -/
theorem ofText_written_atom_iff
    (hShaped : p.IsShaped) :
    ofText env p.written = .ok (.atom false .first p) ↔
      p.Recalled env := by
  have hNested := isNested_atom depthLimit hShaped
  have hWritten :
      (Condition.atom false .first p).written = p.written :=
    written_atom false .first p
  constructor
  · intro hRead
    rw [ofText] at hRead
    split_ifs at hRead
    · cases hRead
    · rw [← hWritten] at hRead
      exact
        recalled_of_within hNested rfl hRead (same_refl _) p
          (by simp [predicates])
  · intro hRecalled
    rcases within_written hNested (by simpa [predicates] using hRecalled)
      with ⟨deeper, hDeeper, hAgain⟩
    have hBlank := not_isBlank_of_within hDeeper hAgain
    cases hDeeper
    rw [hWritten] at hBlank hAgain
    rw [ofText, if_neg hBlank]
    exact hAgain

/-
  The text that a list is kept as is that of its values, and
  it is read back of the list in writing, if the field of the
  list is read back of a test for a missing value.
-/
theorem rightText_of_ofText_written
    (t : Text) :
    ValueList.encode (ValueList.decode t) = t ∧
      ∀ (env : Environment) (p : Predicate),
        p.comparison = .inList → p.rightText = some t →
        ofText env (Predicate.bare p.left .isNull).written =
            .ok (.atom false .first (.bare p.left .isNull)) →
          ofText env p.written =
            .ok
              (.atom false .first
                { Predicate.bare p.left .inList with
                  rightText := some t }) := by
  refine ⟨ValueList.encode_decode t, ?_⟩
  rintro env ⟨left, comparison, rightText, rightField, value⟩ rfl rfl
    hAlone
  have hTest :
      Predicate.Compares left (.bare left .isNull) :=
    .test .isNull (.inl rfl)
  have hList :
      Predicate.Compares left ⟨left, .inList, some t, none, none⟩ :=
    .list t
  have hTestRecalled :=
    (ofText_written_atom_iff (.compares hTest)).mp hAlone
  have hRecalled :
      Predicate.Recalled env ⟨left, .inList, some t, none, none⟩ :=
    (Predicate.recalled_of_compares hList).mpr
      ⟨((Predicate.recalled_of_compares hTest).mp hTestRecalled).1,
        trivial⟩
  exact (ofText_written_atom_iff (.compares hList)).mpr hRecalled

/- Empty values, quotes and backslashes are in the text. -/
theorem rightText_of_ofText_written_backslashes :
    let isIn : Predicate :=
      { Predicate.bare "A b".toList .inList with
        rightText := some "\\\\;;it's, \\;\\".toList }
    ofText (oneField "A b".toList) isIn.written =
      .ok (.atom false .first isIn) :=
  (rightText_of_ofText_written _).2 (oneField "A b".toList) _ rfl rfl
    (by decide +kernel)

end Condition

end SqlSelect
