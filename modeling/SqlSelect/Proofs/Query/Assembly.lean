import SqlSelect.Proofs.Nesting.Sections
import SqlSelect.Query.Clause

/-
  Queries put together from the texts of their clauses. Each
  clause is a spelling of its keyword, blanks and a text in
  which no keyword of a clause occurs. Whatever clauses there
  are, the search for any of them finds its text, and finds
  nothing for one that is not there.

  Main statements:
    * `ClauseText.Fits`
    * `Clause.assembled`
    * `Clause.exists_cutOf_assembled`
    * `Clause.untilKeywords_assembled`
    * `Clause.text?_assembled`
-/

namespace SqlSelect

------------------------------------------------------------
-- Clauses in Writing
------------------------------------------------------------

/-
  A clause as it is written in a query: the keyword, the
  blanks behind it, the text, and the blanks behind that.
-/
structure ClauseText where
  keyword : Text
  gap : Text
  text : Text
  trailing : Text
  deriving DecidableEq

namespace ClauseText

/- What stands behind the keyword. -/
def body
    (w : ClauseText) : Text :=
  w.gap ++ (w.text ++ w.trailing)

/- The whole clause. -/
def written
    (w : ClauseText) : Text :=
  w.keyword ++ w.body

/-
  The keyword is one of the spellings of the keyword of the
  clause, and the text is a text that a clause can have.
-/
structure Fits
    (clause : Clause)
    (w : ClauseText) : Prop where
  spells : Text.Spells clause.keyword.words w.keyword
  gap_ne_nil : w.gap ≠ []
  gap_isBlank : Text.IsBlank w.gap
  text_balanced : Text.Balanced w.text
  text_not_isBlank : ¬ Text.IsBlank w.text
  text_free :
    ∀ other : Clause,
      Text.firstKeyword other.keyword w.text = .ok none
  trailing_isBlank : Text.IsBlank w.trailing

end ClauseText

namespace Clause

/- The clauses in the order in which they are written. -/
def inOrder : List Clause :=
  .select :: later .select

/-
  The text of those among some clauses that are there, one
  after the other.
-/
def assembled
    (written? : Clause → Option ClauseText) :
    List Clause → Text
  | [] => []
  | clause :: rest =>
      match written? clause with
      | none => assembled written? rest
      | some w => w.written ++ assembled written? rest

/-
  Clauses that can be put together: each of them fits, and
  blanks separate it from the clause behind it.
-/
structure Fit
    (written? : Clause → Option ClauseText) : Prop where
  fits :
    ∀ clause w, written? clause = some w → w.Fits clause
  separated :
    ∀ clause w, written? clause = some w →
      (∃ next ∈ clause.later, (written? next).isSome = true) →
      w.trailing ≠ []

------------------------------------------------------------
-- Keywords
------------------------------------------------------------

/- The words of the keywords are words of letters. -/
theorem isLetters_words
    (clause : Clause) :
    ∀ w ∈ clause.keyword.words, Text.IsLetters w := by
  cases clause <;> decide

/-
  The words of a keyword other than the first begin with
  another letter than every keyword.
-/
theorem initial_ne_of_mem_tail
    (clause other : Clause) :
    ∀ w ∈ clause.keyword.words.tail,
      Text.initial w ≠ Text.initial other.keyword := by
  cases clause <;> cases other <;> decide

/- The first letter of a keyword is in no other keyword's words. -/
theorem initial_ne_of_ne
    {clause other : Clause}
    (hOther : clause ≠ other) :
    ∀ w ∈ other.keyword.words,
      Text.initial clause.keyword ≠ Text.initial w := by
  revert hOther
  cases clause <;> cases other <;> decide

/- A keyword has a first word, with its first letter. -/
theorem exists_words
    (clause : Clause) :
    ∃ first words,
      clause.keyword.words = first :: words ∧
        Text.initial first = Text.initial clause.keyword := by
  cases clause <;> exact ⟨_, _, rfl, rfl⟩

/- A spelling of a keyword has the first letter of it. -/
theorem initial_of_spells
    {clause : Clause}
    {k : Text}
    (t : Text)
    (hSpells : Text.Spells clause.keyword.words k) :
    Text.initial (k ++ t) = Text.initial clause.keyword := by
  rcases exists_words clause with ⟨first, words, hWords, hFirst⟩
  have hLetters := isLetters_words clause
  rw [hWords] at hSpells hLetters
  rcases hSpells with ⟨spelled, following, rfl, hSame, -⟩
  have hSpelled :=
    Text.isLetters_of_sameWord hSame
      (hLetters first List.mem_cons_self)
  rw [List.append_assoc,
    Text.initial_append _ hSpelled.1,
    Text.initial_of_sameWord hSame, hFirst]

/- There is no second word of a keyword in front of a clause. -/
theorem startsWord_tail_eq_false
    {clause other : Clause}
    {k : Text}
    (t : Text)
    (hSpells : Text.Spells other.keyword.words k) :
    ∀ w ∈ clause.keyword.words.tail,
      Text.startsWord w (Text.trimStart (k ++ t)) = false := by
  intro w hMem
  have hLetters :=
    isLetters_words clause w (List.mem_of_mem_tail hMem)
  have hTrim : Text.trimStart (k ++ t) = k ++ t := by
    have hHead :=
      Text.head?_of_spells (isLetters_words other) hSpells
    cases k with
    | nil => exact absurd hHead (by simp)
    | cons c k =>
        exact Text.trimStart_of_head
          (isBlank_eq_false_of_isAlpha (by simpa using hHead))
  rw [hTrim]
  apply Text.startsWord_eq_false_of_initial hLetters.1
  rw [initial_of_spells t hSpells]
  exact initial_ne_of_mem_tail clause other w hMem

end Clause

------------------------------------------------------------
-- One Clause
------------------------------------------------------------

namespace ClauseText

variable {clause : Clause}
variable {w : ClauseText}

theorem Fits.body_balanced
    (hFits : w.Fits clause) :
    Text.Balanced w.body :=
  Text.balanced_append
    (Text.balanced_of_isBlank hFits.gap_isBlank)
    (Text.balanced_append hFits.text_balanced
      (Text.balanced_of_isBlank hFits.trailing_isBlank))

theorem Fits.keyword_balanced
    (hFits : w.Fits clause) :
    Text.Balanced w.keyword :=
  Text.balanced_of_plain
    (Text.plain_of_spells (Clause.isLetters_words clause)
      hFits.spells)

theorem Fits.written_balanced
    (hFits : w.Fits clause) :
    Text.Balanced w.written :=
  Text.balanced_append hFits.keyword_balanced hFits.body_balanced

theorem Fits.startsBlank_body
    (hFits : w.Fits clause)
    (t : Text) :
    Text.StartsBlank (w.body ++ t) := by
  rw [body, List.append_assoc]
  exact
    Text.startsBlank_append _ hFits.gap_ne_nil hFits.gap_isBlank

/- The body of a clause holds no keyword of a clause. -/
theorem Fits.isFree_body
    (hFits : w.Fits clause)
    (other : Clause) :
    Text.IsFree other.keyword.words w.body := by
  have hText : Text.IsFree other.keyword.words w.text :=
    (Text.firstKeyword_eq_none_iff hFits.text_balanced).mp
      (hFits.text_free other)
  exact
    Text.isFree_surround (Clause.isLetters_words other) hFits.gap_isBlank
      hFits.trailing_isBlank hFits.text_balanced hText

/- A clause holds no keyword but its own. -/
theorem Fits.isFree_written
    (hFits : w.Fits clause)
    {other : Clause}
    (hOther : other ≠ clause) :
    Text.IsFree other.keyword.words w.written := by
  have hLetters := Clause.isLetters_words other
  rcases Clause.exists_words other
    with ⟨first, words, hWords, hFirst⟩
  have hInitial := Clause.initial_ne_of_ne hOther
  have hFree := hFits.isFree_body other
  have hStarts := hFits.startsBlank_body []
  rw [List.append_nil] at hStarts
  rw [hWords] at hLetters hFree ⊢
  rw [← hFirst] at hInitial
  rw [Text.IsFree, written,
    Text.cutOf_otherKeyword_append hLetters
      (Clause.isLetters_words clause) hInitial hFits.spells
      hFits.body_balanced hStarts,
    hFree]
  rfl

/- The body without its blanks is the text without its own. -/
theorem Fits.nonblank?_body
    (hFits : w.Fits clause) :
    Text.nonblank? w.body = some (Text.trim w.text) := by
  have hNot : ¬ Text.IsBlank w.body := by
    intro hBlank
    rw [body, Text.isBlank_append, Text.isBlank_append]
      at hBlank
    exact hFits.text_not_isBlank hBlank.2.1
  rw [Text.nonblank?, if_neg hNot, body, ← List.append_assoc,
    Text.trim_surround _ hFits.gap_isBlank
      hFits.trailing_isBlank]

end ClauseText

------------------------------------------------------------
-- All Clauses
------------------------------------------------------------

namespace Clause

variable {written? : Clause → Option ClauseText}

/- Behind a clause come the later ones, and not itself. -/
theorem eq_later_of_suffix
    {clause : Clause}
    {rest : List Clause}
    (hSuffix : clause :: rest <:+ inOrder) :
    rest = clause.later ∧ clause ∉ rest := by
  simp only [inOrder, later, List.suffix_cons_iff,
    List.cons.injEq, List.suffix_nil, reduceCtorEq, or_false]
    at hSuffix
  rcases hSuffix with
    ⟨rfl, rfl⟩ | ⟨rfl, rfl⟩ | ⟨rfl, rfl⟩ | ⟨rfl, rfl⟩ |
      ⟨rfl, rfl⟩ | ⟨rfl, rfl⟩ | ⟨rfl, rfl⟩ <;> decide

theorem assembled_of_none
    {clause : Clause}
    (rest : List Clause)
    (hNone : written? clause = none) :
    assembled written? (clause :: rest) =
      assembled written? rest := by
  simp [assembled, hNone]

theorem assembled_of_some
    {clause : Clause}
    {w : ClauseText}
    (rest : List Clause)
    (hSome : written? clause = some w) :
    assembled written? (clause :: rest) =
      w.written ++ assembled written? rest := by
  simp [assembled, hSome]

theorem balanced_assembled
    (hFit : Fit written?)
    (clauses : List Clause) :
    Text.Balanced (assembled written? clauses) := by
  induction clauses with
  | nil => rfl
  | cons clause rest ih =>
      cases hWritten : written? clause with
      | none =>
          rw [assembled_of_none rest hWritten]
          exact ih
      | some w =>
          rw [assembled_of_some rest hWritten]
          exact Text.balanced_append
            (hFit.fits clause w hWritten).written_balanced ih

/- Without a clause in the list nothing is written. -/
theorem assembled_eq_nil_or
    (written? : Clause → Option ClauseText)
    (clauses : List Clause) :
    assembled written? clauses = [] ∨
      ∃ clause ∈ clauses,
        (written? clause).isSome = true := by
  induction clauses with
  | nil => exact Or.inl rfl
  | cons clause rest ih =>
      cases hWritten : written? clause with
      | none =>
          rw [assembled_of_none rest hWritten]
          rcases ih with hNil | ⟨other, hMem, hSome⟩
          · exact Or.inl hNil
          · exact Or.inr
              ⟨other, List.mem_cons_of_mem clause hMem, hSome⟩
      | some w =>
          exact Or.inr
            ⟨clause, List.mem_cons_self, by simp [hWritten]⟩

theorem startsWord_assembled_eq_false
    (hFit : Fit written?)
    (clause : Clause)
    (clauses : List Clause) :
    ∀ word ∈ clause.keyword.words.tail,
      Text.startsWord word
        (Text.trimStart (assembled written? clauses)) =
          false := by
  induction clauses with
  | nil =>
      intro word hMem
      exact Text.startsWord_nil
        (isLetters_words clause word (List.mem_of_mem_tail hMem))
  | cons next rest ih =>
      cases hWritten : written? next with
      | none =>
          rw [assembled_of_none rest hWritten]
          exact ih
      | some w =>
          rw [assembled_of_some rest hWritten,
            ClauseText.written, List.append_assoc]
          exact startsWord_tail_eq_false _
            (hFit.fits next w hWritten).spells

/- A blank stands between a clause and what comes behind. -/
theorem seam_assembled
    (hFit : Fit written?)
    {clause : Clause}
    {rest : List Clause}
    {w : ClauseText}
    (hSuffix : clause :: rest <:+ inOrder)
    (hWritten : written? clause = some w)
    (front : Text) :
    Text.Seam (front ++ w.body)
      (assembled written? rest) := by
  rcases assembled_eq_nil_or written? rest with
    hNil | ⟨next, hMem, hSome⟩
  · exact Or.inl hNil
  · refine Or.inr (Or.inr ?_)
    have hLater := (eq_later_of_suffix hSuffix).1
    have hNotNil : w.trailing ≠ [] :=
      hFit.separated clause w hWritten
        ⟨next, hLater ▸ hMem, hSome⟩
    have hBlank := (hFit.fits clause w hWritten).trailing_isBlank
    rw [ClauseText.body, ← List.append_assoc,
      ← List.append_assoc, List.getLast?_append,
      List.getLast?_eq_some_getLast hNotNil]
    exact Text.isBlank_iff.mp hBlank _
      (List.getLast_mem hNotNil)

/-
  A text that may stand in front of some clauses: none of
  their keywords is in it, and a blank or nothing separates
  it from them.
-/
structure Precedes
    (written? : Clause → Option ClauseText)
    (front : Text)
    (clauses : List Clause) : Prop where
  balanced : Text.Balanced front
  free :
    ∀ clause ∈ clauses,
      Text.IsFree clause.keyword.words front
  seam :
    front ≠ [] →
      Text.Seam front (assembled written? clauses)

/- The keywords in clauses are cut off behind such a text. -/
theorem Precedes.cutOf_append
    (hFit : Fit written?)
    {front : Text}
    {clauses : List Clause}
    (hFront : Precedes written? front clauses)
    {clause : Clause}
    (hMem : clause ∈ clauses) :
    Text.cutOf clause.keyword.words
        (front ++ assembled written? clauses) =
      Cut.prepend front
        (Text.cutOf clause.keyword.words
          (assembled written? clauses)) :=
  Text.cutOf_append_of_isFree (isLetters_words clause)
    hFront.balanced (hFront.free clause hMem)
    (balanced_assembled hFit clauses) hFront.seam
    (startsWord_assembled_eq_false hFit clause clauses)

/- A clause that is not there makes no difference. -/
theorem Precedes.of_none
    {front : Text}
    {clause : Clause}
    {rest : List Clause}
    (hNone : written? clause = none)
    (hFront : Precedes written? front (clause :: rest)) :
    Precedes written? front rest := by
  refine
    ⟨hFront.balanced,
      fun other h =>
        hFront.free other (List.mem_cons_of_mem clause h),
      ?_⟩
  have hSeam := hFront.seam
  rwa [assembled_of_none rest hNone] at hSeam

/- A clause that is there comes to stand in front. -/
theorem Precedes.of_some
    (hFit : Fit written?)
    {front : Text}
    {clause : Clause}
    {rest : List Clause}
    {w : ClauseText}
    (hSuffix : clause :: rest <:+ inOrder)
    (hWritten : written? clause = some w)
    (hFront : Precedes written? front (clause :: rest)) :
    Precedes written? (front ++ w.written) rest := by
  have hFits := hFit.fits clause w hWritten
  refine
    ⟨Text.balanced_append hFront.balanced
        hFits.written_balanced, ?_, ?_⟩
  · intro other hMem
    have hOther : other ≠ clause := by
      rintro rfl
      exact (eq_later_of_suffix hSuffix).2 hMem
    have hSeam : front ≠ [] → Text.Seam front w.written := by
      intro hNotNil
      have hWhole := hFront.seam hNotNil
      rw [assembled_of_some rest hWritten,
        ClauseText.written, List.append_assoc] at hWhole
      have hHead :=
        Text.head?_of_spells (isLetters_words clause)
          hFits.spells
      rcases hWhole with hNil | hBlank | hLast
      · rw [List.append_eq_nil_iff] at hNil
        rw [hNil.1] at hHead
        exact absurd hHead (by simp)
      · refine Or.inr (Or.inl ?_)
        cases hKeyword : w.keyword with
        | nil =>
            rw [hKeyword] at hHead
            exact absurd hHead (by simp)
        | cons c k =>
            rw [hKeyword] at hBlank
            simpa [ClauseText.written, hKeyword] using hBlank
      · exact Or.inr (Or.inr hLast)
    exact Text.isFree_append (isLetters_words other)
      hFront.balanced
      (hFront.free other (List.mem_cons_of_mem clause hMem))
      hFits.written_balanced (hFits.isFree_written hOther)
      hSeam (startsWord_tail_eq_false _ hFits.spells)
  · intro _
    rw [ClauseText.written, ← List.append_assoc]
    exact seam_assembled hFit hSuffix hWritten _

/- A clause that is not there is found nowhere. -/
theorem isFree_assembled
    (hFit : Fit written?)
    {clause : Clause}
    (hNone : written? clause = none)
    {clauses : List Clause}
    (hSuffix : clauses <:+ inOrder) :
    Text.IsFree clause.keyword.words
      (assembled written? clauses) := by
  induction clauses with
  | nil => exact Text.isFree_nil _
  | cons next rest ih =>
      have hRest := ih ((List.suffix_cons next rest).trans hSuffix)
      cases hWritten : written? next with
      | none =>
          rw [assembled_of_none rest hWritten]
          exact hRest
      | some w =>
          have hFits := hFit.fits next w hWritten
          have hOther : clause ≠ next := by
            rintro rfl
            rw [hNone] at hWritten
            exact absurd hWritten (by simp)
          rw [assembled_of_some rest hWritten]
          exact Text.isFree_append (isLetters_words clause)
            hFits.written_balanced (hFits.isFree_written hOther)
            (balanced_assembled hFit rest) hRest
            (fun _ => seam_assembled hFit hSuffix hWritten _)
            (startsWord_assembled_eq_false hFit clause rest)

/- A clause that is there is cut off at its keyword. -/
theorem cutOf_assembled_self
    (hFit : Fit written?)
    {clause : Clause}
    {rest : List Clause}
    {w : ClauseText}
    (hSuffix : clause :: rest <:+ inOrder)
    (hWritten : written? clause = some w) :
    Text.cutOf clause.keyword.words
        (assembled written? (clause :: rest)) =
      Cut.occurrence w.keyword
        (Text.cutOf clause.keyword.words
          (w.body ++ assembled written? clause.later)) := by
  have hFits := hFit.fits clause w hWritten
  have hLater := (eq_later_of_suffix hSuffix).1
  subst hLater
  rw [assembled_of_some _ hWritten, ClauseText.written,
    List.append_assoc]
  exact Text.cutOf_spelled (isLetters_words clause) hFits.spells
    (Text.balanced_append hFits.body_balanced
      (balanced_assembled hFit _))
    (hFits.startsBlank_body _)

theorem exists_cutOf_assembled
    (hFit : Fit written?)
    {clause : Clause}
    {w : ClauseText}
    (hWritten : written? clause = some w)
    {clauses : List Clause}
    (hSuffix : clauses <:+ inOrder)
    (hMem : clause ∈ clauses) :
    ∃ front,
      Text.cutOf clause.keyword.words
          (assembled written? clauses) =
        Cut.prepend front
          (Cut.occurrence w.keyword
            (Text.cutOf clause.keyword.words
              (w.body ++ assembled written? clause.later))) := by
  induction clauses with
  | nil => exact absurd hMem List.not_mem_nil
  | cons next rest ih =>
      by_cases hSame : clause = next
      · subst hSame
        exact ⟨[], cutOf_assembled_self hFit hSuffix hWritten⟩
      · have hRest : clause ∈ rest :=
          (List.mem_cons.mp hMem).resolve_left hSame
        rcases
            ih ((List.suffix_cons next rest).trans hSuffix) hRest
          with ⟨front, hCut⟩
        cases hNext : written? next with
        | none =>
            rw [assembled_of_none rest hNext]
            exact ⟨front, hCut⟩
        | some v =>
            have hFits := hFit.fits next v hNext
            rw [assembled_of_some rest hNext,
              Text.cutOf_append_of_isFree (isLetters_words clause)
                hFits.written_balanced
                (hFits.isFree_written hSame)
                (balanced_assembled hFit rest)
                (fun _ => seam_assembled hFit hSuffix hNext _)
                (startsWord_assembled_eq_false hFit clause rest),
              hCut, Cut.prepend_prepend]
            exact ⟨v.written ++ front, rfl⟩

/-
  The text in front of the first keyword of some clauses, by
  induction on the clauses: those that are there come to
  stand in front of the others.
-/
theorem untilKeywords_assembled
    (hFit : Fit written?)
    {front : Text}
    {clauses : List Clause}
    (hSuffix : clauses <:+ inOrder)
    (hFront : Precedes written? front clauses) :
    Text.untilKeywords (front ++ assembled written? clauses)
        (clauses.map keyword) =
      .ok front := by
  induction clauses generalizing front with
  | nil => simp [assembled, Text.untilKeywords]
  | cons clause rest ih =>
      have hRest := (List.suffix_cons clause rest).trans hSuffix
      have hBalanced :=
        Text.balanced_append hFront.balanced
          (balanced_assembled hFit (clause :: rest))
      have hHead :
          Text.untilKeyword clause.keyword
              (front ++ assembled written? (clause :: rest)) =
            .ok (front ++
              (Text.cutOf clause.keyword.words
                (assembled written? (clause :: rest))).head) := by
        rw [Text.untilKeyword, Text.cutAtKeyword_eq hBalanced,
          hFront.cutOf_append hFit List.mem_cons_self]
        rfl
      rw [List.map_cons, Text.untilKeywords, hHead]
      cases hWritten : written? clause with
      | none =>
          rw [assembled_of_none rest hWritten,
            ih hRest (hFront.of_none hWritten)]
          -- The rest is cut at the end of `front` or before.
          simp only [bind, Except.bind, pure, Except.pure]
          split
          · rename_i hLe
            have hNil :
                (Text.cutOf clause.keyword.words
                  (assembled written? rest)).head = [] := by
              rw [List.length_append] at hLe
              exact List.length_eq_zero_iff.mp (by omega)
            rw [hNil, List.append_nil]
          · rfl
      | some w =>
          have hNil :
              (Text.cutOf clause.keyword.words
                (assembled written? (clause :: rest))).head =
                [] := by
            rw [cutOf_assembled_self hFit hSuffix hWritten]
            rfl
          rw [hNil, List.append_nil,
            assembled_of_some rest hWritten, ← List.append_assoc,
            ih hRest (hFront.of_some hFit hSuffix hWritten)]
          simp [bind, Except.bind, pure, Except.pure]

------------------------------------------------------------
-- Finding a Clause
------------------------------------------------------------

/- Every clause is one of those in order. -/
theorem suffix_inOrder
    (clause : Clause) :
    clause :: clause.later <:+ inOrder := by
  cases clause <;> simp [inOrder, later, List.suffix_cons_iff]

/-
  Whatever clauses a query is put together from, the text of
  each of them is found, and of no other one.
-/
theorem text?_assembled
    (hFit : Fit written?)
    {lead : Text}
    (hLead : Text.IsBlank lead)
    (clause : Clause) :
    clause.text? (lead ++ assembled written? inOrder) =
      .ok ((written? clause).map fun w => Text.trim w.text) := by
  have hLetters := isLetters_words clause
  have hWhole := balanced_assembled hFit inOrder
  have hBalanced :=
    Text.balanced_append (Text.balanced_of_isBlank hLead) hWhole
  rw [text?, Text.section?, Text.cutAtKeyword_eq hBalanced,
    Text.cutOf_blank_append hLetters hLead hWhole]
  cases hWritten : written? clause with
  | none =>
      rw [isFree_assembled hFit hWritten (List.suffix_refl _)]
      rfl
  | some w =>
      have hFits := hFit.fits clause w hWritten
      have hLater := suffix_inOrder clause
      have hMem : clause ∈ inOrder :=
        hLater.subset List.mem_cons_self
      rcases
          exists_cutOf_assembled hFit hWritten
            (List.suffix_refl _) hMem
        with ⟨front, hCut⟩
      have hRest :=
        Text.balanced_append hFits.body_balanced
          (balanced_assembled hFit clause.later)
      have hAfter :
          (Cut.prepend lead
            (Text.cutOf clause.keyword.words
              (assembled written? inOrder))).afterFirst? =
            some (w.body ++ assembled written? clause.later) := by
        rw [hCut]
        exact congrArg some
          (Text.text_cutOf clause.keyword.words hRest)
      have hFront : Precedes written? w.body clause.later :=
        ⟨hFits.body_balanced,
          fun other _ => hFits.isFree_body other,
          fun _ => seam_assembled hFit hLater hWritten []⟩
      have hUntil :=
        untilKeywords_assembled hFit
          ((List.suffix_cons _ _).trans hLater) hFront
      simp only [bind, Except.bind, hAfter, hUntil, pure,
        Except.pure, hFits.nonblank?_body, Option.map_some]

/-
  A query with three clauses. A keyword stands in quotes, and
  the keyword of two words has a line break between them.
-/
def groupedClauses : Clause → Option ClauseText
  | .select =>
      some ⟨"select".toList, " ".toList,
        "'x FROM y'".toList, " ".toList⟩
  | .table =>
      some ⟨"from".toList, " ".toList,
        "T".toList, " ".toList⟩
  | .grouping =>
      some ⟨"group\nBY".toList, " ".toList, "A".toList, []⟩
  | _ => none

theorem fit_groupedClauses :
    Fit groupedClauses := by
  refine ⟨?_, ?_⟩
  · intro clause w hWritten
    cases clause <;>
      simp only [groupedClauses, Option.some.injEq,
        reduceCtorEq] at hWritten <;> subst hWritten
    case select =>
      exact
        { spells := Text.spells_singleton (by decide)
          gap_ne_nil := by decide
          gap_isBlank := by decide
          text_balanced := by decide
          text_not_isBlank := by decide
          text_free := fun other => by
            cases other <;> decide +kernel
          trailing_isBlank := by decide }
    case table =>
      exact
        { spells := Text.spells_singleton (by decide)
          gap_ne_nil := by decide
          gap_isBlank := by decide
          text_balanced := by decide
          text_not_isBlank := by decide
          text_free := fun other => by
            cases other <;> decide +kernel
          trailing_isBlank := by decide }
    case grouping =>
      exact
        { spells :=
            ⟨"group".toList, "\nBY".toList, by decide, by decide,
              "\n".toList, "BY".toList, [], by decide,
              by decide, by decide, by decide, rfl⟩
          gap_ne_nil := by decide
          gap_isBlank := by decide
          text_balanced := by decide
          text_not_isBlank := by decide
          text_free := fun other => by
            cases other <;> decide +kernel
          trailing_isBlank := by decide }
  · intro clause w hWritten hLater
    cases clause <;>
      simp_all [groupedClauses, later]
    all_goals subst hWritten; decide

theorem text?_assembled_groupedClauses :
    Clause.grouping.text?
        "select 'x FROM y' from T group\nBY A".toList =
      .ok (some "A".toList) := by
  have hText :
      "select 'x FROM y' from T group\nBY A".toList =
        [] ++ assembled groupedClauses inOrder := by
    decide
  rw [hText,
    text?_assembled fit_groupedClauses Text.isBlank_nil]
  decide

end Clause

end SqlSelect
