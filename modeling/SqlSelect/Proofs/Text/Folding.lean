import SqlSelect.Proofs.Text.Case
import SqlSelect.Proofs.Text.Quoting

/-
  What letter case does not change. Blanks, quotes, points
  and parentheses have no letter case, so that a text with
  its letters made small has the same blanks, sections and
  groups.

  Main statements:
    * `toLower_eq_iff`
    * `Text.foldCase_trim`
    * `Text.foldCase_undouble`
    * `Text.balanced_foldCase`
    * `Name.foldCase_unquote`
    * `Text.exists_sameWord_append`
-/

namespace SqlSelect

------------------------------------------------------------
-- Characters
------------------------------------------------------------

theorem toLower_of_not_isUpper
    {c : Char}
    (hNot : ¬ c.isUpper = true) :
    c.toLower = c := by
  unfold Char.toLower
  split
  · rename_i hUpper
    refine absurd ?_ hNot
    unfold Char.isUpper
    simpa using hUpper
  · rfl

/- A character that is no letter comes from itself only. -/
theorem toLower_eq_iff
    {c q : Char}
    (hPlain : q.isAlpha = false) :
    c.toLower = q ↔ c = q := by
  have hSame
      {d : Char}
      (hAlpha : d.isAlpha = false) :
      d.toLower = d := by
    apply toLower_of_not_isUpper
    intro hUpper
    unfold Char.isAlpha at hAlpha
    rw [hUpper, Bool.true_or] at hAlpha
    cases hAlpha
  constructor
  · intro hLower
    have hAlpha := isAlpha_toLower c
    rw [hLower, hPlain] at hAlpha
    rw [← hSame hAlpha.symm, hLower]
  · rintro rfl
    exact hSame hPlain

section

variable {p : Char → Bool}

/- The capital letters, as one closed range. -/
theorem of_isUpper
    {c : Char}
    (hUpper : c.isUpper = true)
    (hAll :
      (codePoints [(65, 90)]).all
        (fun n => p (Char.ofNat n)) = true) :
    p c = true := by
  refine of_codePoints [(65, 90)] hAll ?_
  unfold Char.isUpper at hUpper
  simp only [decide_eq_true_eq, ge_iff_le, UInt32.le_iff_toNat_le]
    at hUpper
  simpa using hUpper

theorem toLower_toLower
    (c : Char) :
    c.toLower.toLower = c.toLower := by
  by_cases hUpper : c.isUpper = true
  · have hSame : (c.toLower.toLower == c.toLower) = true :=
      of_isUpper (p := fun c => c.toLower.toLower == c.toLower)
        hUpper (by decide +kernel)
    exact eq_of_beq hSame
  · rw [toLower_of_not_isUpper hUpper, toLower_of_not_isUpper hUpper]

/-
  A class of characters that has a capital exactly if it has
  the small letter does not tell letter case.
-/
theorem of_toLower
    (hAll :
      (codePoints [(65, 90)]).all
        (fun n =>
          p (Char.ofNat n).toLower == p (Char.ofNat n)) = true)
    (c : Char) :
    p c.toLower = p c := by
  by_cases hUpper : c.isUpper = true
  · have hSame : (p c.toLower == p c) = true :=
      of_isUpper (p := fun c => p c.toLower == p c) hUpper hAll
    exact eq_of_beq hSame
  · rw [toLower_of_not_isUpper hUpper]

theorem isBlank_toLower
    (c : Char) :
    isBlank c.toLower = isBlank c :=
  of_toLower (by decide +kernel) c

theorem isNameChar_toLower
    (c : Char) :
    isNameChar c.toLower = isNameChar c :=
  of_toLower (by decide +kernel) c

theorem isNameStart_toLower
    (c : Char) :
    isNameStart c.toLower = isNameStart c :=
  of_toLower (by decide +kernel) c

theorem isDigit_toLower
    (c : Char) :
    c.toLower.isDigit = c.isDigit :=
  of_toLower (p := Char.isDigit) (by decide +kernel) c

end

namespace Text

variable {q : Char}
variable {s t : Text}

------------------------------------------------------------
-- Ends
------------------------------------------------------------

@[simp]
theorem foldCase_nil :
    foldCase [] = [] := rfl

@[simp]
theorem foldCase_cons
    (c : Char)
    (t : Text) :
    foldCase (c :: t) = c.toLower :: foldCase t := rfl

theorem foldCase_take
    (n : Nat)
    (t : Text) :
    foldCase (t.take n) = (foldCase t).take n :=
  List.map_take

theorem foldCase_drop
    (n : Nat)
    (t : Text) :
    foldCase (t.drop n) = (foldCase t).drop n :=
  List.map_drop

@[simp]
theorem foldCase_foldCase
    (t : Text) :
    foldCase (foldCase t) = foldCase t := by
  rw [foldCase, foldCase, List.map_map]
  exact List.map_congr_left fun c _ => toLower_toLower c

/- Without letters there is nothing to make small. -/
theorem foldCase_of_plain
    (hPlain : ∀ c ∈ t, c.isAlpha = false) :
    foldCase t = t := by
  rw [foldCase, List.map_congr_left, List.map_id']
  intro c hMem
  exact (toLower_eq_iff (hPlain c hMem)).mpr rfl

theorem startsWord_foldCase
    (word t : Text) :
    startsWord word (foldCase t) = startsWord word t := by
  simp only [startsWord, ← foldCase_take, foldCase_foldCase]

theorem head?_foldCase
    (hPlain : q.isAlpha = false) :
    (foldCase t).head? = some q ↔ t.head? = some q := by
  cases t with
  | nil => simp
  | cons c t => simp [toLower_eq_iff hPlain]

theorem getLast?_foldCase
    (hPlain : q.isAlpha = false) :
    (foldCase t).getLast? = some q ↔ t.getLast? = some q := by
  rw [foldCase, List.getLast?_map]
  cases t.getLast? with
  | none => simp
  | some c => simp [toLower_eq_iff hPlain]

theorem foldCase_inner
    (t : Text) :
    foldCase (inner t) = inner (foldCase t) := by
  simp [inner, foldCase, List.map_dropLast, List.map_tail]

------------------------------------------------------------
-- Blanks
------------------------------------------------------------

theorem isBlank_foldCase
    {t : Text} :
    IsBlank (foldCase t) ↔ IsBlank t := by
  simp [IsBlank, foldCase, isBlank_toLower]

theorem foldCase_dropWhile
    {p : Char → Bool}
    (hFold : ∀ c : Char, p c.toLower = p c)
    (t : Text) :
    foldCase (t.dropWhile p) = (foldCase t).dropWhile p := by
  have hSame : p ∘ Char.toLower = p := funext hFold
  rw [foldCase, foldCase, List.dropWhile_map, hSame]

theorem foldCase_takeWhile
    {p : Char → Bool}
    (hFold : ∀ c : Char, p c.toLower = p c)
    (t : Text) :
    foldCase (t.takeWhile p) = (foldCase t).takeWhile p := by
  have hSame : p ∘ Char.toLower = p := funext hFold
  rw [foldCase, foldCase, List.takeWhile_map, hSame]

theorem foldCase_trimStart
    (t : Text) :
    foldCase (trimStart t) = trimStart (foldCase t) :=
  foldCase_dropWhile isBlank_toLower t

theorem foldCase_trimEnd
    (t : Text) :
    foldCase (trimEnd t) = trimEnd (foldCase t) := by
  induction t with
  | nil => rfl
  | cons c t ih =>
      rw [foldCase_cons, trimEnd, trimEnd, ← ih]
      cases trimEnd t with
      | nil =>
          simp only [foldCase_nil, isBlank_toLower]
          split_ifs <;> rfl
      | cons d kept => rfl

/- A text in small letters is trimmed like the text itself. -/
theorem foldCase_trim
    (t : Text) :
    foldCase (trim t) = trim (foldCase t) := by
  rw [trim, trim, foldCase_trimEnd, foldCase_trimStart]

------------------------------------------------------------
-- Sections and Groups
------------------------------------------------------------

/- Pairs of a character that is no letter stay pairs. -/
theorem foldCase_undouble
    (hPlain : q.isAlpha = false)
    (t : Text) :
    foldCase (undouble q t) = undouble q (foldCase t) := by
  fun_induction undouble q t with
  | case1 => rfl
  | case2 c => rfl
  | case3 c d rest hBoth ih =>
      have hLower := (toLower_eq_iff hPlain).mpr (rfl : q = q)
      rw [hBoth.1, hBoth.2, foldCase_cons, ih, foldCase_cons,
        foldCase_cons, hLower, undouble, if_pos ⟨rfl, rfl⟩]
  | case4 c d rest hOther ih =>
      have hOther' : ¬ (c.toLower = q ∧ d.toLower = q) := by
        rwa [toLower_eq_iff hPlain, toLower_eq_iff hPlain]
      have hLater :
          undouble q (foldCase (c :: d :: rest)) =
            c.toLower :: undouble q (foldCase (d :: rest)) := by
        simp only [foldCase_cons, undouble, if_neg hOther']
      rw [foldCase_cons, ih, hLater]

theorem closerOf?_toLower
    (c : Char) :
    closerOf? c.toLower = closerOf? c := by
  have hDouble := toLower_eq_iff (c := c) (q := '"') (by decide)
  have hSingle := toLower_eq_iff (c := c) (q := '\'') (by decide)
  have hBack := toLower_eq_iff (c := c) (q := '\x60') (by decide)
  have hOpen := toLower_eq_iff (c := c) (q := '[') (by decide)
  simp only [closerOf?, hDouble, hSingle, hBack, hOpen]
  split_ifs with hQuote
  · rcases hQuote with rfl | rfl | rfl <;> rfl
  · rfl
  · rfl

end Text

/- The end of a section is no letter. -/
theorem isAlpha_eq_false_of_closerOf?
    {c q : Char}
    (hCloses : closerOf? c = some q) :
    q.isAlpha = false := by
  unfold closerOf? at hCloses
  split_ifs at hCloses with hQuote
  · cases hCloses
    rcases hQuote with rfl | rfl | rfl <;> rfl
  · cases hCloses
    rfl

namespace Nesting

/- The walk is in no section that ends with a letter. -/
def ClosesPlain
    (n : Nesting) : Prop :=
  ∀ q, n.closer = some q → q.isAlpha = false

theorem step_toLower
    {n : Nesting}
    (hPlain : n.ClosesPlain)
    (c : Char) :
    n.step c.toLower = n.step c := by
  have hOpen := toLower_eq_iff (c := c) (q := '(') (by decide)
  have hClose := toLower_eq_iff (c := c) (q := ')') (by decide)
  rw [step, step]
  cases hCloser : n.closer with
  | some q => simp only [toLower_eq_iff (hPlain q hCloser)]
  | none => simp only [Text.closerOf?_toLower, hOpen, hClose]

theorem ClosesPlain.step
    {n next : Nesting}
    {c : Char}
    (hPlain : n.ClosesPlain)
    (hStep : n.step c = some next) :
    next.ClosesPlain :=
  (step_eq_some_iff.mp hStep).closer
    (fun _ _ => isAlpha_eq_false_of_closerOf?) hPlain

/- Letter case does not lead a walk astray. -/
theorem run_foldCase
    {n : Nesting}
    (hPlain : n.ClosesPlain)
    (t : Text) :
    n.run (Text.foldCase t) = n.run t := by
  induction t generalizing n with
  | nil => rfl
  | cons c t ih =>
      rw [Text.foldCase_cons, run_cons, run_cons, step_toLower hPlain]
      cases hStep : n.step c with
      | none => rfl
      | some next => exact ih (hPlain.step hStep)

end Nesting

theorem Text.balanced_foldCase
    {t : Text} :
    Balanced (foldCase t) ↔ Balanced t := by
  have hPlain : Nesting.outside.ClosesPlain := fun q hCloser => by
    cases hCloser
  rw [Balanced, Balanced, Nesting.run_foldCase hPlain]

------------------------------------------------------------
-- Names
------------------------------------------------------------

theorem Text.isPlainName_foldCase
    {t : Text} :
    IsPlainName (foldCase t) ↔ IsPlainName t := by
  cases t with
  | nil => rfl
  | cons c t =>
      simp [IsPlainName, foldCase, isNameStart_toLower,
        isNameChar_toLower]

namespace Name

theorem isEnclosed_foldCase
    {q : Char}
    {t : Text}
    (hPlain : q.isAlpha = false) :
    IsEnclosed q (Text.foldCase t) ↔ IsEnclosed q t := by
  rw [IsEnclosed, IsEnclosed, Text.length_foldCase,
    Text.head?_foldCase hPlain, Text.getLast?_foldCase hPlain]

/- The name in a text in small letters is in small letters. -/
theorem foldCase_unquote
    (t : Text) :
    Text.foldCase (unquote t) = unquote (Text.foldCase t) := by
  have hDouble : ('"').isAlpha = false := by decide
  have hBack : ('\x60').isAlpha = false := by decide
  simp only [unquote, ← Text.foldCase_trim, isEnclosed_foldCase hDouble,
    isEnclosed_foldCase hBack, ← Text.foldCase_inner,
    ← Text.foldCase_undouble hDouble, ← Text.foldCase_undouble hBack]
  split_ifs <;> rfl

end Name

------------------------------------------------------------
-- Texts in Other Letters
------------------------------------------------------------

namespace Text

variable {s t u : Text}

/- What is the same in other letters divides at the same places. -/
theorem exists_sameWord_append
    (hSame : SameWord u (s ++ t)) :
    ∃ s' t', u = s' ++ t' ∧ SameWord s' s ∧ SameWord t' t := by
  rw [SameWord, foldCase_append] at hSame
  rcases List.map_eq_append_iff.mp hSame
    with ⟨s', t', hText, hFirst, hSecond⟩
  exact ⟨s', t', hText, hFirst, hSecond⟩

/- A character that is no letter stands there in both texts. -/
theorem exists_sameWord_cons
    {q : Char}
    (hPlain : q.isAlpha = false)
    (hSame : SameWord u (q :: t)) :
    ∃ t', u = q :: t' ∧ SameWord t' t := by
  have hLower := (toLower_eq_iff hPlain).mpr (rfl : q = q)
  rw [SameWord, foldCase_cons, hLower] at hSame
  rcases List.map_eq_cons_iff.mp hSame
    with ⟨c, t', hText, hChar, hRest⟩
  rw [toLower_eq_iff hPlain] at hChar
  exact ⟨t', by rw [hText, hChar], hRest⟩

/- Without letters there are no other letters. -/
theorem eq_of_sameWord
    (hSame : SameWord s t)
    (hPlain : ∀ c ∈ t, c.isAlpha = false) :
    s = t := by
  induction t generalizing s with
  | nil =>
      exact List.length_eq_zero_iff.mp (length_eq_of_sameWord hSame)
  | cons c t ih =>
      rcases exists_sameWord_cons (hPlain c List.mem_cons_self) hSame
        with ⟨s', rfl, hRest⟩
      rw [ih hRest fun d hMem => hPlain d (List.mem_cons_of_mem c hMem)]

theorem sameWord_trim
    (hSame : SameWord s t) :
    SameWord (trim s) (trim t) := by
  rw [SameWord, foldCase_trim, foldCase_trim, hSame]

theorem isBlank_of_sameWord
    (hSame : SameWord s t)
    (hBlank : IsBlank t) :
    IsBlank s := by
  rwa [← isBlank_foldCase, hSame, isBlank_foldCase]

theorem isPlainName_of_sameWord
    (hSame : SameWord s t)
    (hPlain : IsPlainName t) :
    IsPlainName s := by
  rwa [← isPlainName_foldCase, hSame, isPlainName_foldCase]

theorem balanced_of_sameWord
    (hSame : SameWord s t)
    (hBalanced : Balanced t) :
    Balanced s := by
  rwa [← balanced_foldCase, hSame, balanced_foldCase]

end Text

end SqlSelect
