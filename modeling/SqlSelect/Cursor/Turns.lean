import SqlSelect.Cursor.Basic

/-
  The walks of a cursor, turn by turn. A turn looks at the
  next character: it takes a quoted or bracketed section
  whole, counts a parenthesis, or moves over one character.
  Each walk has turns of its own, which tell where it ends and
  what it takes for a fault. A walk to the end of a group
  counts with the cursor's own depth, up to the depth that it
  has begun with, and a walk over an operand takes a group
  whole by such a walk.

  Key definitions include:
    * `Stop.afterSection`
    * `Cursor.passSection`
    * `Turn`
    * `Cursor.byTurns`
    * `Cursor.topTurn`
    * `Cursor.topByTurns`
    * `Cursor.groupTurn`
    * `Cursor.groupByTurns`
    * `Cursor.operandTurn`
    * `Cursor.operandByTurns`
-/

namespace SqlSelect

------------------------------------------------------------
-- Sections
------------------------------------------------------------

namespace Stop

/-
  Walk to the end of the section that `q` closes, behind the
  character that has opened it and with `depth` groups open.
  Of two quotes in a row none ends the section; a bracket
  always does.
-/
def afterSection
    (q : Char)
    (depth : Nat) : Text → Stop
  | [] => ⟨false, depth, []⟩
  | [c] => ⟨c == q, depth, []⟩
  | c :: d :: rest =>
      if c = q then
        if q ≠ ']' ∧ d = q then afterSection q depth rest
        else ⟨true, depth, d :: rest⟩
      else afterSection q depth (d :: rest)

/- The text left is the end of the text walked over. -/
theorem afterSection_rest_suffix
    (q : Char)
    (depth : Nat)
    (t : Text) :
    (afterSection q depth t).rest <:+ t := by
  fun_induction afterSection q depth t with
  | case1 => exact List.suffix_refl _
  | case2 c => exact List.nil_suffix
  | case3 d rest hDoubled ih =>
      exact
        (ih.trans (List.suffix_cons d rest)).trans
          (List.suffix_cons q (d :: rest))
  | case4 d rest hSingle => exact List.suffix_cons q (d :: rest)
  | case5 c d rest hOther ih =>
      exact ih.trans (List.suffix_cons c (d :: rest))

end Stop

------------------------------------------------------------
-- Turns
------------------------------------------------------------

/- What a turn of a walk comes to. -/
inductive Turn
    (α : Type) where
  | goesOn
  | ends (outcome : Except Error α)

/- A turn that takes something whole, or ends where this fails. -/
def Turn.ofOutcome
    {α : Type} : Except Error Unit × Cursor → Turn α × Cursor
  | (.ok (), after) => (.goesOn, after)
  | (.error e, after) => (.ends (.error e), after)

theorem Turn.ofOutcome_eq_goesOn_iff
    {α : Type}
    {found : Except Error Unit × Cursor}
    {after : Cursor} :
    Turn.ofOutcome (α := α) found = (.goesOn, after) ↔
      found = (.ok (), after) := by
  rcases found with ⟨_ | ⟨⟩, behind⟩ <;> simp [Turn.ofOutcome]

theorem Turn.ofOutcome_ne_ends_ok
    {α : Type}
    {found : Except Error Unit × Cursor}
    {result : α}
    {after : Cursor} :
    Turn.ofOutcome found ≠ (.ends (.ok result), after) := by
  rcases found with ⟨_ | ⟨⟩, behind⟩ <;> simp [Turn.ofOutcome]

namespace Cursor

variable {s after : Cursor}

/-
  Move over the section that the next character opens and `q`
  closes.
-/
def passSection
    (q : Char)
    (s : Cursor) : Except Error Unit × Cursor :=
  let inside := s.advance.2
  inside.moveTo (Stop.afterSection q s.depth inside.rest)

/- Move over the next character, into a group or out of it. -/
def advanceTo
    (depth : Nat)
    (s : Cursor) : Cursor :=
  { s.advance.2 with depth := depth }

/- Behind the next character there is less of the text. -/
theorem tail_length_lt
    {c : Char}
    (hNext : s.next? = some c) :
    s.rest.tail.length < s.rest.length := by
  have hPos := List.length_pos_of_mem (List.mem_of_mem_head? hNext)
  rw [List.length_tail]
  omega

theorem passSection_length_lt
    {c q : Char}
    (hNext : s.next? = some c)
    (hPassed : s.passSection q = (.ok (), after)) :
    after.rest.length < s.rest.length := by
  have hSuffix : (s.passSection q).2.rest <:+ s.rest.tail :=
    Stop.afterSection_rest_suffix q s.depth s.rest.tail
  rw [hPassed] at hSuffix
  exact Nat.lt_of_le_of_lt hSuffix.length_le (tail_length_lt hNext)

/-
  Walk turn by turn. A turn that does not end the walk leaves
  less of the text.
-/
def byTurns
    {α : Type}
    (turn : Cursor → Turn α × Cursor)
    (hLess :
      ∀ s after,
        turn s = (.goesOn, after) → after.rest.length < s.rest.length)
    (s : Cursor) : Except Error α × Cursor :=
  match _ : turn s with
  | (.ends outcome, after) => (outcome, after)
  | (.goesOn, after) => byTurns turn hLess after
  termination_by s.rest.length
  decreasing_by exact hLess _ _ ‹_›

------------------------------------------------------------
-- To the Top Level
------------------------------------------------------------

/-
  A turn of the walk to the next character at the top level,
  which tells the byte at which the character begins.
-/
def topTurn
    (s : Cursor) : Turn (Option (Nat × Char)) × Cursor :=
  match s.next? with
  | none =>
      if 0 < s.depth then (.ends (.error s.unbalanced), s)
      else (.ends (.ok none), s)
  | some c =>
      match closerOf? c with
      | some q => Turn.ofOutcome (s.passSection q)
      | none =>
          if c = '(' then (.goesOn, s.advanceTo (s.depth + 1))
          else if c = ')' then
            if s.depth = 0 then (.ends (.error s.unbalanced), s)
            else (.goesOn, s.advanceTo (s.depth - 1))
          else if s.depth = 0 then
            (.ends (.ok (some (s.position, c))), s.advance.2)
          else (.goesOn, s.advance.2)

theorem topTurn_length_lt
    (s after : Cursor)
    (hTurn : s.topTurn = (.goesOn, after)) :
    after.rest.length < s.rest.length := by
  rw [topTurn] at hTurn
  split at hTurn
  · split at hTurn <;> cases hTurn
  · rename_i c hNext
    split at hTurn
    · exact
        passSection_length_lt hNext
          (Turn.ofOutcome_eq_goesOn_iff.1 hTurn)
    · have hLess := tail_length_lt hNext
      repeat' split at hTurn
      all_goals cases hTurn
      all_goals exact hLess

/- Move over the next character at the top level, turn by turn. -/
def topByTurns
    (s : Cursor) : Except Error (Option (Nat × Char)) × Cursor :=
  byTurns topTurn topTurn_length_lt s

------------------------------------------------------------
-- To the End of a Group
------------------------------------------------------------

/-
  A turn of the walk to the end of a group that has begun with
  `outer` groups open.
-/
def groupTurn
    (outer : Nat)
    (s : Cursor) : Turn Unit × Cursor :=
  match s.next? with
  | none => (.ends (.error s.unbalanced), s)
  | some c =>
      match closerOf? c with
      | some q => Turn.ofOutcome (s.passSection q)
      | none =>
          if c = '(' then (.goesOn, s.advanceTo (s.depth + 1))
          else if c = ')' then
            if s.depth = outer then (.ends (.error s.unbalanced), s)
            else if s.depth - 1 = outer then
              (.ends (.ok ()), s.advanceTo (s.depth - 1))
            else (.goesOn, s.advanceTo (s.depth - 1))
          else (.goesOn, s.advance.2)

/- Less of the text is left, at the end of the group too. -/
theorem groupTurn_length_lt
    (outer : Nat)
    (s after : Cursor)
    (hTurn :
      s.groupTurn outer = (.goesOn, after) ∨
        s.groupTurn outer = (.ends (.ok ()), after)) :
    after.rest.length < s.rest.length := by
  rw [groupTurn] at hTurn
  split at hTurn
  · rcases hTurn with hTurn | hTurn <;> cases hTurn
  · rename_i c hNext
    split at hTurn
    · rename_i q hOpens
      rcases hTurn with hTurn | hTurn
      · exact
          passSection_length_lt hNext
            (Turn.ofOutcome_eq_goesOn_iff.1 hTurn)
      · exact absurd hTurn Turn.ofOutcome_ne_ends_ok
    · have hLess := tail_length_lt hNext
      repeat' split at hTurn
      all_goals
        rcases hTurn with hTurn | hTurn <;> cases hTurn <;> exact hLess

/- Move on to the end of the group, turn by turn. -/
def groupFrom
    (outer : Nat)
    (s : Cursor) : Except Error Unit × Cursor :=
  byTurns (groupTurn outer)
    (fun s after hTurn => groupTurn_length_lt outer s after (.inl hTurn))
    s

theorem groupFrom_length_lt
    {outer : Nat}
    (hPassed : s.groupFrom outer = (.ok (), after)) :
    after.rest.length < s.rest.length := by
  rw [groupFrom] at hPassed
  fun_induction byTurns with
  | case1 s outcome behind hTurn =>
      cases hPassed
      exact groupTurn_length_lt outer s after (.inr hTurn)
  | case2 s behind hTurn ih =>
      exact
        Nat.lt_trans (ih hPassed)
          (groupTurn_length_lt outer s behind (.inl hTurn))

def groupByTurns
    (s : Cursor) : Except Error Unit × Cursor :=
  s.groupFrom s.depth

------------------------------------------------------------
-- Over an Operand
------------------------------------------------------------

/- A turn of the walk over an operand. -/
def operandTurn
    (s : Cursor) : Turn Unit × Cursor :=
  match s.next? with
  | none => (.ends (.ok ()), s)
  | some c =>
      match closerOf? c with
      | some q => Turn.ofOutcome (s.passSection q)
      | none =>
          if c = '(' then Turn.ofOutcome s.groupByTurns
          else if c = ')' then (.ends (.error s.unbalanced), s)
          else if (isBlank c || isSymbol c) = true then
            (.ends (.ok ()), s)
          else (.goesOn, s.advance.2)

theorem operandTurn_length_lt
    (s after : Cursor)
    (hTurn : s.operandTurn = (.goesOn, after)) :
    after.rest.length < s.rest.length := by
  rw [operandTurn] at hTurn
  split at hTurn
  · cases hTurn
  · rename_i c hNext
    split at hTurn
    · exact
        passSection_length_lt hNext
          (Turn.ofOutcome_eq_goesOn_iff.1 hTurn)
    · split at hTurn
      · exact groupFrom_length_lt (Turn.ofOutcome_eq_goesOn_iff.1 hTurn)
      · have hLess := tail_length_lt hNext
        repeat' split at hTurn
        all_goals cases hTurn
        exact hLess

/- Move on to the end of the operand, turn by turn. -/
def operandFrom
    (s : Cursor) : Except Error Unit × Cursor :=
  byTurns operandTurn operandTurn_length_lt s

/- Read an operand behind blanks, turn by turn. -/
def operandByTurns
    (s : Cursor) : Except Error Text × Cursor :=
  let start := s.skipBlanks
  let (outcome, after) := start.operandFrom
  (outcome.map fun _ => since start after, after)

end Cursor

end SqlSelect
