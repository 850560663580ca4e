import SqlSelect.Proofs.Cursor.Position
import SqlSelect.Proofs.Selection.Calls

/-
  What a cursor reads, told by the text. Each way to move a
  cursor on succeeds with a result and a place if and only if
  the text from the cursor on is what belongs to the result,
  followed by the text from that place on. So a reader that
  moves step by step can be compared with the form of the
  texts that it accepts.

  Main statements:
    * `Cursor.word_eq_iff`
    * `Cursor.symbol?_eq_iff`
    * `Cursor.operand_eq_ok_iff`
    * `Cursor.group_eq_ok_iff`
    * `Cursor.atChar_eq_true_iff`
-/

namespace SqlSelect

namespace Cursor

variable {s after : Cursor}
variable {t : Text}

------------------------------------------------------------
-- Runs of Characters
------------------------------------------------------------

/- What is left behind a run does not begin like the run. -/
theorem head?_any_dropWhile
    (p : Char → Bool)
    (t : Text) :
    (t.dropWhile p).head?.any p = false := by
  cases hRest : t.dropWhile p with
  | nil => rfl
  | cons c rest =>
      have hHead := List.head?_dropWhile_not p t
      simpa [hRest] using hHead

/- A word is the longest run of its characters. -/
theorem word_eq_iff
    {word : Text} :
    s.word = (word, after) ↔
      ∃ t,
        s.rest = word ++ t ∧ (∀ c ∈ word, isNameChar c = true) ∧
          t.head?.any isNameChar = false ∧
          after = { s with rest := t } := by
  constructor
  · intro hWord
    rw [word_eq] at hWord
    cases hWord
    exact
      ⟨_, List.takeWhile_append_dropWhile.symm,
        fun c hMem => List.mem_takeWhile_imp hMem,
        head?_any_dropWhile isNameChar s.rest, rfl⟩
  · rintro ⟨t, hRest, hNames, hNext, rfl⟩
    exact word_of_append word hRest hNames hNext

/- So is a symbol, where one comes next. -/
theorem symbol?_eq_iff
    {found : Option Text} :
    s.symbol? = (found, after) ↔
      ∃ symbol t,
        s.rest = symbol ++ t ∧ (∀ c ∈ symbol, isSymbol c = true) ∧
          t.head?.any isSymbol = false ∧
          found = (if symbol.isEmpty then none else some symbol) ∧
          after = { s with rest := t } := by
  have hRun :=
    symbol?_of_append (s := s) (t := s.rest.dropWhile isSymbol)
      (s.rest.takeWhile isSymbol)
      List.takeWhile_append_dropWhile.symm
      (fun c hMem => List.mem_takeWhile_imp hMem)
      (head?_any_dropWhile isSymbol s.rest)
  constructor
  · intro hSymbol
    rw [hRun] at hSymbol
    cases hSymbol
    exact
      ⟨_, _, List.takeWhile_append_dropWhile.symm,
        fun c hMem => List.mem_takeWhile_imp hMem,
        head?_any_dropWhile isSymbol s.rest, rfl, rfl⟩
  · rintro ⟨symbol, t, hRest, hSymbol, hNext, rfl, rfl⟩
    exact symbol?_of_append symbol hRest hSymbol hNext

------------------------------------------------------------
-- Operands and Keywords
------------------------------------------------------------

/- An operand is the text up to what ends it. -/
theorem operand_eq_ok_iff
    {operand : Text} :
    s.operand = (.ok operand, after) ↔
      ∃ t,
        Text.trimStart s.rest = operand ++ t ∧
          Text.Balanced operand ∧
          Nesting.outside.Passes endsOperand operand ∧
          Stop.Halts endsOperand t ∧
          after = { s with rest := t } := by
  constructor
  · intro hRead
    rcases
      Stop.exists_run_atTop endsOperand Nesting.outside
        s.skipBlanks.rest
      with ⟨passed, m, hRest, hRun, hPasses, -, hReached⟩
    have hOk := congrArg Prod.fst hRead
    rcases map_eq_ok_iff.mp hOk with ⟨⟨⟩, hMoved, -⟩
    have hThere :
        (Stop.atTop endsOperand none 0 s.skipBlanks.rest).reached =
          true := by
      by_contra hNot
      change (if Stop.reached _ = true then _ else _) = _ at hMoved
      exact absurd ((if_neg hNot).symm.trans hMoved) (by simp)
    rcases hReached hThere with ⟨rfl, hHalts⟩
    rw [operand_eq hRest hRun hPasses hHalts] at hRead
    cases hRead
    exact ⟨_, hRest, hRun, hPasses, hHalts, rfl⟩
  · rintro ⟨t, hRest, hBalanced, hPasses, hHalts, rfl⟩
    exact operand_eq hRest hBalanced hPasses hHalts

------------------------------------------------------------
-- Groups
------------------------------------------------------------

/- A group is a balanced text in parentheses. -/
theorem group_eq_ok_iff
    {interior : Text}
    (hOpens : s.next? = some '(') :
    s.group = .ok (interior, after) ↔
      ∃ t,
        s.rest = '(' :: (interior ++ ')' :: t) ∧
          Text.Balanced interior ∧
          after = { s with rest := t } := by
  constructor
  · intro hGroup
    rcases exists_of_group hOpens hGroup with ⟨hRest, hBalanced⟩
    rw [group_eq hRest hBalanced] at hGroup
    have hAfter := (Prod.mk.inj (Except.ok.inj hGroup)).2
    exact ⟨after.rest, hRest, hBalanced, hAfter.symm⟩
  · rintro ⟨t, hRest, hBalanced, rfl⟩
    exact group_eq hRest hBalanced

/- A character comes next behind blanks, or none. -/
theorem atChar_eq_true_iff
    {c : Char}
    (hPlain : isBlank c = false) :
    s.atChar c = (true, after) ↔
      ∃ blanks t,
        s.rest = blanks ++ c :: t ∧ Text.IsBlank blanks ∧
          after = { s with rest := c :: t } := by
  constructor
  · intro hAt
    rcases Prod.mk.inj hAt with ⟨hNext, rfl⟩
    rcases exists_blanks_skipBlanks s with ⟨blanks, hBlank, hRest⟩
    have hFirst : s.skipBlanks.rest.head? = some c := eq_of_beq hNext
    rcases List.head?_eq_some_iff.mp hFirst with ⟨t, hFrom⟩
    refine ⟨blanks, t, hFrom ▸ hRest, hBlank, ?_⟩
    rw [← hFrom]
    rfl
  · rintro ⟨blanks, t, hRest, hBlank, rfl⟩
    have hSkip : s.skipBlanks = { s with rest := c :: t } :=
      skipBlanks_of_append hRest hBlank (by simpa using hPlain)
    simp [atChar, hSkip, next?]

end Cursor

end SqlSelect
