import SqlSelect.Proofs.Query.Layout

/-
  Queries from their clauses. Whatever clauses are laid out
  with their keywords, the text of each of them is found
  again, and of no other one, if no keyword of a clause stands
  in their texts.

  Main statements:
    * `Clause.LaidOut.balanced`
    * `Clause.LaidOut.text?_eq_of_passed`
    * `Clause.LaidOut.text?_eq`
-/

namespace SqlSelect

namespace Clause

/- No keyword of a clause stands in the text. -/
structure NoneIn
    (t : Text) : Prop where
  balanced : Text.Balanced t
  free : ∀ clause : Clause, Text.IsFree clause.keyword.words t

/-
  A text that can stand behind the keyword of a clause
  without a change to the query around it.
-/
structure IsText
    (t : Text) : Prop extends NoneIn t where
  some : t ≠ []
  trimmed : Text.IsTrimmed t

variable {stored : Clause → Option Text}
variable {skips : Clause → Prop}
variable {clause other : Clause}
variable {clauses rest : List Clause}
variable {t u v done front keyword after : Text}
variable {w : ClauseText}

------------------------------------------------------------
-- One Clause
------------------------------------------------------------

/- What stands behind a keyword is the text of the clause. -/
theorem nonblank?_of_stands
    (hTexts : ∀ text, stored clause = some text → IsText text)
    (hStands : w.Stands clause (stored clause) v) :
    Text.nonblank? w.body = stored clause := by
  have hGap := hStands.gap_isBlank
  have hTrailing := hStands.trailing_isBlank
  have hTrim : Text.trim w.body = Text.trim ((stored clause).getD []) := by
    rw [ClauseText.body, Text.trim_append_left _ hGap,
      Text.trim_append_right _ hTrailing, hStands.text_eq]
  cases hFound : stored clause with
  | none =>
      rw [hFound] at hTrim
      exact if_pos (Text.trim_eq_nil_iff.mp hTrim)
  | some text =>
      have hText := hTexts text hFound
      rw [hFound, Option.getD_some,
        Text.trim_eq_of_isTrimmed hText.trimmed] at hTrim
      have hSome : ¬ Text.IsBlank w.body := by
        rw [← Text.trim_eq_nil_iff, hTrim]
        exact hText.some
      rw [Text.nonblank?, if_neg hSome, hTrim]

theorem isFree_of_stands
    (hTexts : ∀ text, stored clause = some text → IsText text)
    (hStands : w.Stands clause (stored clause) v)
    (other : Clause) :
    Text.Balanced w.body ∧ Text.IsFree other.keyword.words w.body :=
  isFree_body_of_stands hStands fun text hSome =>
    ⟨(hTexts text hSome).balanced, (hTexts text hSome).free other⟩

theorem balanced_of_stands
    (hTexts : ∀ text, stored clause = some text → IsText text)
    (hStands : w.Stands clause (stored clause) v) :
    Text.Balanced w.written :=
  Text.balanced_append
    (Text.balanced_of_plain
      (Text.plain_of_spells (isLetters_words clause) hStands.spells))
    (isFree_of_stands hTexts hStands clause).1

/- A text that is laid out is balanced. -/
theorem LaidOut.balanced
    (hTexts : ∀ clause text, stored clause = some text → IsText text)
    (hLaidOut : LaidOut stored skips clauses u) :
    Text.Balanced u := by
  induction hLaidOut with
  | nil => exact Text.balanced_nil
  | absent _ _ ih => exact ih
  | present w hStands _ ih =>
      exact
        Text.balanced_append (balanced_of_stands (hTexts _) hStands) ih

/-
  The body of a clause runs to the first keyword of a later
  clause, or to the end of the text.
-/
theorem eq_body_of_until
    (hTexts : ∀ clause text, stored clause = some text → IsText text)
    (hSuffix : clause :: rest <:+ inOrder)
    (hStands : w.Stands clause (stored clause) v)
    (hRest : LaidOut stored skips rest v)
    (hUntil :
      Text.Until (clause.later.map Clause.keyword) (w.body ++ v) u) :
    u = w.body := by
  have hBehind := eq_later_of_suffix hSuffix
  have hBody := (isFree_of_stands (hTexts clause) hStands clause).1
  have hShort : u.length ≤ w.body.length := by
    rcases exists_occurs_behind hStands hRest hBody
      with rfl | ⟨next, hMem, keyword, after, hNext⟩
    · simpa using hUntil.isPrefix.length_le
    · rw [hBehind.1] at hMem
      exact
        hUntil.least next.keyword (List.mem_map_of_mem hMem) _ _ _ hNext
  have hLong : w.body.length ≤ u.length := by
    rcases hUntil.reached with hAll | ⟨k, hMem, keyword, after, hOccurs⟩
    · rw [hAll, List.length_append]
      omega
    · rcases List.mem_map.mp hMem with ⟨next, hLater, rfl⟩
      have hNe : clause ≠ next := by
        rintro rfl
        exact hBehind.2 (hBehind.1 ▸ hLater)
      -- The same occurrence, seen from the start of the clause.
      have hWhole :
          Text.Occurs next.keyword.words ([] ++ (w.written ++ v))
            (w.keyword ++ u) keyword after := by
        rw [List.nil_append, ClauseText.written, List.append_assoc]
        exact
          hOccurs.append_left (isLetters_words next)
            (Text.balanced_of_plain
              (Text.plain_of_spells (isLetters_words clause)
                hStands.spells))
            hStands.endsAfter
      have hLe :=
        length_le_of_stands Text.balanced_nil
          (Text.endsBefore_of_isBlank Text.isBlank_nil) hStands hRest
          hBody hNe (isFree_of_stands (hTexts clause) hStands next).2
          hWhole (Nat.zero_le _)
      rw [List.nil_append, ClauseText.written, List.length_append,
        List.length_append] at hLe
      omega
  have hSplit := List.prefix_iff_eq_take.mp hUntil.isPrefix
  rw [hSplit, Nat.le_antisymm hShort hLong, List.take_left']
  rfl

------------------------------------------------------------
-- All Clauses
------------------------------------------------------------

section Passed

variable {pending : Clause → Prop}

/- A clause that stands here is found with its text. -/
theorem Passed.text?_eq
    (hTexts : ∀ clause text, stored clause = some text → IsText text)
    (hBalanced : Text.Balanced t)
    (hSuffix : clause :: rest <:+ inOrder)
    (hPassed : Passed t pending done (w.written ++ v))
    (hStands : w.Stands clause (stored clause) v)
    (hRest : LaidOut stored skips rest v)
    (hClause : pending clause) :
    clause.text? t = .ok (stored clause) := by
  rcases exists_until_of_first hBalanced (hPassed.first hStands hClause)
    with ⟨u, hUntil, hText⟩
  rw [hText, eq_body_of_until hTexts hSuffix hStands hRest hUntil,
    nonblank?_of_stands (hTexts clause) hStands]

/- At the end no clause that is still pending is found. -/
theorem Passed.text?_of_end
    (hPassed : Passed t pending done [])
    (hClause : pending clause) :
    clause.text? t = .ok none := by
  have hAll : t = done := hPassed.split.trans (List.append_nil done)
  have hBalanced : Text.Balanced t := hAll ▸ hPassed.balanced
  refine text?_of_isFree hBalanced ?_
  refine (Text.isFree_iff (isLetters_words clause) hBalanced).mpr ?_
  intro front keyword after hOccurs
  have hLt := length_lt_of_occurs hOccurs
  rw [hAll] at hLt
  exact absurd hLt (hPassed.least clause hClause _ _ _ hOccurs).not_gt

/-
  The clauses that are still to come are found as they are
  laid out, by induction on them. None of them occurs in what
  is done, and those without a place have no text.
-/
theorem LaidOut.text?_eq_of_passed
    (hTexts : ∀ clause text, stored clause = some text → IsText text)
    (hSuffix : clauses <:+ inOrder)
    (hLaidOut :
      LaidOut stored (fun clause => stored clause = none) clauses u)
    (hPassed : Passed t pending done u)
    (hPending :
      ∀ clause, pending clause → clause ∈ clauses ∨ stored clause = none)
    (hClauses : ∀ clause ∈ clauses, pending clause) :
    ∀ clause, pending clause → clause.text? t = .ok (stored clause) := by
  have hBalanced : Text.Balanced t := by
    rw [hPassed.split]
    exact Text.balanced_append hPassed.balanced (hLaidOut.balanced hTexts)
  induction hLaidOut generalizing done pending with
  | nil =>
      intro clause hClause
      rw [(hPending clause hClause).resolve_left List.not_mem_nil]
      exact hPassed.text?_of_end hClause
  | @absent next rest v hSkip _ ih =>
      refine
        ih ((List.suffix_cons _ _).trans hSuffix) hPassed ?_
          fun clause hMem => hClauses clause (List.mem_cons_of_mem _ hMem)
      intro clause hClause
      rcases hPending clause hClause with hMem | hNone
      · rcases List.mem_cons.mp hMem with rfl | hMem
        · exact .inr hSkip
        · exact .inl hMem
      · exact .inr hNone
  | @present next rest v w hStands hRest ih =>
      have hBody := isFree_of_stands (hTexts next) hStands
      have hOthers :
          ∀ clause, pending clause ∧ clause ≠ next →
            clause.text? t = .ok (stored clause) := by
        refine
          ih ((List.suffix_cons _ _).trans hSuffix)
            (hPassed.step hStands hRest (hBody next).1
              fun other h => ⟨h.1, h.2.symm, (hBody other).2⟩)
            ?_ ?_
        · rintro clause ⟨hClause, hNe⟩
          refine (hPending clause hClause).imp_left fun hMem => ?_
          exact (List.mem_cons.mp hMem).resolve_left hNe
        · intro clause hMem
          refine ⟨hClauses clause (List.mem_cons_of_mem _ hMem), ?_⟩
          rintro rfl
          exact (eq_later_of_suffix hSuffix).2 hMem
      intro clause hClause
      by_cases hSame : clause = next
      · subst hSame
        exact
          hPassed.text?_eq hTexts hBalanced hSuffix hStands hRest hClause
      · exact hOthers clause ⟨hClause, hSame⟩

end Passed

/-
  The clauses of a text that is laid out are found as they
  are laid out.
-/
theorem LaidOut.text?_eq
    (hTexts : ∀ clause text, stored clause = some text → IsText text)
    (hLaidOut :
      LaidOut stored (fun clause => stored clause = none) inOrder t)
    (clause : Clause) :
    clause.text? t = .ok (stored clause) :=
  hLaidOut.text?_eq_of_passed hTexts (List.suffix_refl _)
    (passed_of_isBlank (List.nil_append t).symm Text.isBlank_nil)
    (fun clause _ => .inl (mem_inOrder clause))
    (fun _ _ => trivial) clause trivial

end Clause

end SqlSelect
