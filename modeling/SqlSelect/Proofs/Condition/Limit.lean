import SqlSelect.Proofs.Condition.Rows

/-
  The limit on parentheses inside each other. A condition that
  is read within some number of parentheses is read within
  every other number, or is refused because parentheses nest
  too deep and for no other cause. So the depth of its tree
  tells how many more of them may stand around it.

  Main statements:
    * `Condition.agree_readNested`
    * `Condition.readNested_eq_of_nesting`
    * `Condition.EnclosedIn`
    * `Condition.ofText_of_enclosedIn`
-/

namespace SqlSelect

namespace Condition

------------------------------------------------------------
-- Refused for the Depth
------------------------------------------------------------

section

variable {α β : Type}
variable {a : α}
variable {outcome : Except Error α}

/- The outcome is the value, or that parentheses nest too deep. -/
def IsOrTooDeep
    (outcome : Except Error α)
    (a : α) : Prop :=
  outcome = .ok a ∨ outcome = .error (.malformed .tooDeep)

theorem IsOrTooDeep.map
    (hOutcome : IsOrTooDeep outcome a)
    (f : α → β) :
    IsOrTooDeep (outcome.map f) (f a) := by
  rcases hOutcome with rfl | rfl
  · exact .inl rfl
  · exact .inr rfl

/-
  What the first reads the second reads as well, unless the
  parentheses nest too deep for it.
-/
def Agree
    (read other : α → Except Error β) : Prop :=
  ∀ a b, read a = .ok b → IsOrTooDeep (other a) b

/- Readers that agree on elements agree on lists of them. -/
theorem Agree.mapM
    {read other : α → Except Error β}
    {as : List α}
    {bs : List β}
    (hAgree : Agree read other)
    (hRead : as.mapM read = .ok bs) :
    IsOrTooDeep (as.mapM other) bs := by
  rw [mapM_eq_ok_iff] at hRead
  induction hRead with
  | nil => exact .inl rfl
  | @cons a b as bs hFirst _ ih =>
      rw [List.mapM_cons]
      rcases hAgree a b hFirst with hOther | hDeep
      · rw [hOther]
        exact ih.map fun bs => b :: bs
      · rw [hDeep]
        exact .inr rfl

end

------------------------------------------------------------
-- Readers That Agree
------------------------------------------------------------

variable {env : Environment}
variable {deeper? other? : Option (Text → Except Error Condition)}
variable {allowance count : Nat}
variable {s t inner : Text}
variable {c : Condition}
variable {rows : List (List Condition)}

/- What is read of a part that stands in parentheses. -/
theorem readPart_of_enclosed
    (hText : ¬ Text.IsBlank t)
    (hEnclosed : Text.enclosed? (bare t).2 = .ok (some inner))
    (hInner : ¬ Text.IsBlank inner) :
    readPart env deeper? t =
      match deeper? with
      | none => .error (.malformed .tooDeep)
      | some deeper =>
          (deeper inner).map fun c =>
            enclosed (c.negatedIf (bare t).1) := by
  have hSome : Text.trim t ≠ [] :=
    fun hNil => hText (Text.trim_eq_nil_iff.mp hNil)
  rcases hPart : stripNots (Text.trim t) with ⟨negated, rest⟩
  simp only [bare, hPart] at hEnclosed ⊢
  cases deeper? <;>
    simp only [readPart, if_neg hSome, hPart, hEnclosed, bind, Except.bind,
      if_neg hInner]

theorem agree_readPart
    (hDeeper :
      ∀ deeper other,
        deeper? = some deeper → other? = some other →
          Agree deeper other) :
    Agree (readPart env deeper?) (readPart env other?) := by
  intro t u hRead
  rcases readPart_eq_ok_iff.mp hRead with
    ⟨hText, hAtom | ⟨inner, deeper, d, hEnclosed, hInner, hSome, hd, rfl⟩⟩
  · exact .inl (readPart_eq_ok_iff.mpr ⟨hText, .inl hAtom⟩)
  · rw [readPart_of_enclosed hText hEnclosed hInner]
    cases other? with
    | none => exact .inr rfl
    | some other => exact (hDeeper deeper other hSome rfl inner d hd).map _

theorem agree_readAnd
    (hParts : Agree (readPart env deeper?) (readPart env other?)) :
    Agree (readAnd env deeper?) (readAnd env other?) := by
  intro t c hRead
  rcases bind_eq_ok_iff.mp hRead with ⟨parts, hSplit, hRest⟩
  rcases bind_eq_ok_iff.mp hRest with ⟨cs, hAll, hJoin⟩
  cases hJoin
  rw [readAnd, hSplit]
  exact (hParts.mapM hAll).map (joinAll .and)

theorem agree_readAll
    (hParts : Agree (readPart env deeper?) (readPart env other?)) :
    Agree (readAll env deeper?) (readAll env other?) := by
  intro t c hRead
  rcases bind_eq_ok_iff.mp hRead with ⟨segments, hSplit, hRest⟩
  rcases bind_eq_ok_iff.mp hRest with ⟨cs, hAll, hJoin⟩
  cases hJoin
  rw [readAll, hSplit]
  exact ((agree_readAnd hParts).mapM hAll).map (joinAll .or)

/-
  What is read within some number of parentheses is read the
  same within any other, unless it nests too deep, by
  induction on the other number.
-/
theorem agree_readNested
    (env : Environment)
    (allowance allowance' : Nat) :
    Agree (readNested env allowance) (readNested env allowance') := by
  induction allowance' generalizing allowance with
  | zero =>
      rw [readNested_eq, readNested_eq]
      refine agree_readAll (agree_readPart fun deeper other _ hNone => ?_)
      cases hNone
  | succ allowance' ih =>
      rw [readNested_eq, readNested_eq]
      refine agree_readAll (agree_readPart fun deeper other hSome hOther => ?_)
      cases allowance with
      | zero => cases hSome
      | succ allowance =>
          cases hSome
          cases hOther
          exact ih allowance

/-
  A condition that is read at all is read within a number of
  parentheses exactly if its tree fits in. Otherwise they nest
  too deep.
-/
theorem readNested_eq_of_nesting
    {other : Nat}
    (allowance : Nat)
    (hRead : readNested env other t = .ok c) :
    readNested env allowance t =
      if c.nesting ≤ allowance then .ok c
      else .error (.malformed .tooDeep) := by
  split
  · rename_i hNesting
    exact readNested_of_nesting_le hRead hNesting
  · rename_i hDeep
    refine (agree_readNested env other allowance t c hRead).resolve_left ?_
    intro hOk
    exact hDeep (readNested_eq_ok_iff_nesting.mp hOk).2

------------------------------------------------------------
-- Parentheses around a Text
------------------------------------------------------------

/-
  The text stands in so many pairs of parentheses, with blanks
  or nothing on both sides of each of them.
-/
inductive EnclosedIn
    (t : Text) : Nat → Text → Prop where
  | blanks
      {front behind : Text}
      (hFront : Text.IsBlank front)
      (hBehind : Text.IsBlank behind) :
      EnclosedIn t 0 (front ++ (t ++ behind))
  | pair
      {count : Nat}
      {inner front behind : Text}
      (hInner : EnclosedIn t count inner)
      (hFront : Text.IsBlank front)
      (hBehind : Text.IsBlank behind) :
      EnclosedIn t (count + 1)
        (front ++ (Written.inParentheses inner ++ behind))

theorem enclosedIn_iterate
    (t : Text)
    (count : Nat) :
    EnclosedIn t count (Written.inParentheses^[count] t) := by
  induction count with
  | zero =>
      simpa using EnclosedIn.blanks (t := t) Text.isBlank_nil Text.isBlank_nil
  | succ count ih =>
      rw [Function.iterate_succ_apply']
      simpa using ih.pair Text.isBlank_nil Text.isBlank_nil

theorem nesting_iterate_enclosed
    (c : Condition)
    (count : Nat) :
    (enclosed^[count] c).nesting = c.nesting + count := by
  induction count with
  | zero => rfl
  | succ count ih =>
      rw [Function.iterate_succ_apply', nesting_enclosed, ih,
        Nat.add_assoc]

/- Blanks around a text make no difference to its rows. -/
theorem ReadsRows.surround
    {front behind : Text}
    (hRows : ReadsRows env allowance t rows)
    (hFront : Text.IsBlank front)
    (hBehind : Text.IsBlank behind) :
    ReadsRows env allowance (front ++ (t ++ behind)) rows := by
  have hEnd :=
    Text.balanced_append hRows.balanced (Text.balanced_of_isBlank hBehind)
  refine
    ⟨Text.balanced_append (Text.balanced_of_isBlank hFront) hEnd, ?_⟩
  rw [layout_blank_append hFront hEnd,
    layout_append_blank hBehind hRows.balanced]
  exact hRows.reads

/-
  A text in parentheses is read as its tree in as many, if so
  many more may be open, by induction on their number.
-/
theorem ReadsRows.exists_enclosedIn
    (hRows : ReadsRows env allowance t rows)
    (hEnclosed : EnclosedIn t count s) :
    ∃ rows',
      ReadsRows env (allowance + count) s rows' ∧
        ofRows rows' = Condition.enclosed^[count] (ofRows rows) := by
  induction hEnclosed with
  | blanks hFront hBehind =>
      exact ⟨rows, hRows.surround hFront hBehind, rfl⟩
  | @pair count inner front behind _ hFront hBehind ih =>
      rcases ih with ⟨rows', hInner, hTree⟩
      refine
        ⟨_, (hInner.enclosed false).surround hFront hBehind, ?_⟩
      rw [Function.iterate_succ_apply', ← hTree, negatedIf_false]
      rfl

/-
  A condition that is not blank can stand in as many pairs of
  parentheses as its tree leaves of those that may be open. It
  is then read as its tree in so many groups of one, and in
  more of them it is refused because they nest too deep.
-/
theorem ofText_of_enclosedIn
    (hText : ¬ Text.IsBlank t)
    (hRead : ofText env t = .ok c)
    (hEnclosed : EnclosedIn t count s) :
    c.nesting ≤ depthLimit ∧
      ofText env s =
        (if c.nesting + count ≤ depthLimit then .ok (enclosed^[count] c)
          else .error (.malformed .tooDeep)) ∧
      Malformation.tooDeep.message = "nesting too deep".toList := by
  rw [ofText, if_neg hText] at hRead
  have hNesting := (readNested_eq_ok_iff_nesting.mp hRead).2
  rcases readNested_eq_ok_iff_rows.mp hRead with ⟨rows, hRows, rfl⟩
  rcases hRows.exists_enclosedIn hEnclosed with ⟨rows', hRows', hTree⟩
  have hWhole := readNested_eq_ok_iff_rows.mpr ⟨rows', hRows', rfl⟩
  refine ⟨hNesting, ?_, rfl⟩
  rw [ofText, if_neg hRows'.not_isBlank,
    readNested_eq_of_nesting depthLimit hWhole, hTree,
    nesting_iterate_enclosed]

/-
  NOT in front of a group with a list and a quoted parenthesis
  counts as one: there may be 63 more pairs around it.
-/
theorem ofText_of_enclosedIn_not :
    ∃ c,
      ofText (oneField "A".toList)
          "NOT (A IN (2, 3) OR A = ')(')".toList = .ok c ∧
        c.nesting = 1 ∧
        ofText (oneField "A".toList)
            (Written.inParentheses^[63]
              "NOT (A IN (2, 3) OR A = ')(')".toList) =
          .ok (enclosed^[63] c) ∧
        ofText (oneField "A".toList)
            (Written.inParentheses^[64]
              "NOT (A IN (2, 3) OR A = ')(')".toList) =
          .error (.malformed .tooDeep) := by
  let isIn : Predicate :=
    ⟨"A".toList, .inList, some "2;3".toList, none, none⟩
  let isParens : Predicate :=
    ⟨"A".toList, .eq, some ")(".toList, none, some (.string ")(".toList)⟩
  let c : Condition :=
    enclosed
      (.group true .first
        [.atom false .first isIn, .atom false .or isParens])
  have hText :
      ¬ Text.IsBlank "NOT (A IN (2, 3) OR A = ')(')".toList := by
    decide +kernel
  have hRead :
      ofText (oneField "A".toList)
          "NOT (A IN (2, 3) OR A = ')(')".toList = .ok c := by
    decide +kernel
  have hNesting : c.nesting = 1 := by decide +kernel
  have hMost := ofText_of_enclosedIn hText hRead (enclosedIn_iterate _ 63)
  have hMore := ofText_of_enclosedIn hText hRead (enclosedIn_iterate _ 64)
  rw [hNesting] at hMost hMore
  exact ⟨c, hRead, hNesting, hMost.2.1, hMore.2.1⟩

end Condition

end SqlSelect
