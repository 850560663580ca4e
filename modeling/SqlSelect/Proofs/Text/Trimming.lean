import Mathlib.Data.List.Basic
import Mathlib.Data.List.TakeWhile
import SqlSelect.Text.Blank

/-
  Blanks around a text. Trimming takes them away and nothing
  else, so a text is its blanks in front, the trimmed text
  and its blanks behind, and the trimmed text begins and ends
  with no blank.

  Main statements:
    * `Text.trim_eq_of_isTrimmed`
    * `Text.isTrimmed_trim`
    * `Text.exists_blanks_trim`
    * `Text.trim_surround`
    * `Text.trim_eq_nil_iff`
-/

namespace SqlSelect

namespace Text

------------------------------------------------------------
-- Blank Texts
------------------------------------------------------------

@[simp]
theorem isBlank_nil :
    IsBlank [] := rfl

theorem isBlank_iff
    {t : Text} :
    IsBlank t ↔ ∀ c ∈ t, SqlSelect.isBlank c = true := by
  simp [IsBlank]

@[simp]
theorem isBlank_cons
    {c : Char}
    {t : Text} :
    IsBlank (c :: t) ↔
      SqlSelect.isBlank c = true ∧ IsBlank t := by
  simp [IsBlank]

@[simp]
theorem isBlank_append
    {s t : Text} :
    IsBlank (s ++ t) ↔ IsBlank s ∧ IsBlank t := by
  simp [IsBlank]

/- The blanks in front of a text are a blank text. -/
theorem isBlank_takeWhile
    (t : Text) :
    IsBlank (t.takeWhile SqlSelect.isBlank) :=
  List.all_takeWhile

------------------------------------------------------------
-- Blanks in Front
------------------------------------------------------------

theorem trimStart_append
    {b : Text}
    (t : Text)
    (hBlank : IsBlank b) :
    trimStart (b ++ t) = trimStart t :=
  List.dropWhile_append_of_pos (isBlank_iff.mp hBlank)

@[simp]
theorem trimStart_of_isBlank
    {t : Text}
    (hBlank : IsBlank t) :
    trimStart t = [] := by
  simpa [trimStart] using isBlank_iff.mp hBlank

/- A text that begins with no blank has none to drop. -/
theorem trimStart_of_head
    {c : Char}
    {t : Text}
    (hHead : SqlSelect.isBlank c = false) :
    trimStart (c :: t) = c :: t := by
  simp [trimStart, hHead]

/- A text is the blanks in front of it and the rest. -/
theorem takeWhile_append_trimStart
    (t : Text) :
    t.takeWhile SqlSelect.isBlank ++ trimStart t = t :=
  List.takeWhile_append_dropWhile

/- Other characters have the same blanks in front of them. -/
theorem takeWhile_append_of_not_isBlank
    {s : Text}
    (t : Text)
    (hText : ¬ IsBlank s) :
    (s ++ t).takeWhile SqlSelect.isBlank =
      s.takeWhile SqlSelect.isBlank := by
  rw [List.takeWhile_append, if_neg]
  intro hLength
  refine hText (isBlank_iff.mpr (List.takeWhile_eq_self_iff.mp ?_))
  exact (List.takeWhile_prefix _).eq_of_length hLength

theorem trimStart_append_of_not_isBlank
    {s : Text}
    (t : Text)
    (hText : ¬ IsBlank s) :
    trimStart (s ++ t) = trimStart s ++ t := by
  have hSame := takeWhile_append_trimStart (s ++ t)
  rw [takeWhile_append_of_not_isBlank t hText] at hSame
  refine List.append_cancel_left (hSame.trans ?_)
  rw [← List.append_assoc, takeWhile_append_trimStart]

/- What is left begins with no blank. -/
theorem head?_trimStart
    (t : Text) :
    (trimStart t).head?.all
      (fun c => !SqlSelect.isBlank c) = true := by
  have hHead := List.head?_dropWhile_not SqlSelect.isBlank t
  cases h : (trimStart t).head? with
  | none => rfl
  | some c =>
      simp only [trimStart] at h
      simpa [h] using hHead

------------------------------------------------------------
-- Blanks Behind
------------------------------------------------------------

@[simp]
theorem trimEnd_of_isBlank
    {t : Text}
    (hBlank : IsBlank t) :
    trimEnd t = [] := by
  induction t with
  | nil => rfl
  | cons c t ih =>
      rcases isBlank_cons.mp hBlank with ⟨hHead, hRest⟩
      simp [trimEnd, ih hRest, hHead]

theorem trimEnd_append
    (t : Text)
    {b : Text}
    (hBlank : IsBlank b) :
    trimEnd (t ++ b) = trimEnd t := by
  induction t with
  | nil => simp [hBlank, trimEnd]
  | cons c t ih => simp [trimEnd, ih]

/- The text without blanks behind it, and these blanks. -/
theorem exists_blank_trimEnd
    (t : Text) :
    ∃ b, IsBlank b ∧ t = trimEnd t ++ b := by
  induction t with
  | nil => exact ⟨[], rfl, rfl⟩
  | cons c t ih =>
      rcases ih with ⟨b, hBlank, hText⟩
      cases hRest : trimEnd t with
      | nil =>
          rw [hRest, List.nil_append] at hText
          by_cases hHead : SqlSelect.isBlank c = true
          · refine ⟨c :: t, ?_, ?_⟩
            · rw [hText]
              exact isBlank_cons.mpr ⟨hHead, hBlank⟩
            · simp [trimEnd, hRest, hHead]
          · refine ⟨b, hBlank, ?_⟩
            rw [← hText]
            simp [trimEnd, hRest, hHead]
      | cons d kept =>
          refine ⟨b, hBlank, ?_⟩
          rw [hRest] at hText
          simp [trimEnd, hRest, ← hText]

/- What is left ends with no blank. -/
theorem getLast?_trimEnd
    (t : Text) :
    (trimEnd t).getLast?.all
      (fun c => !SqlSelect.isBlank c) = true := by
  induction t with
  | nil => rfl
  | cons c t ih =>
      cases hRest : trimEnd t with
      | nil =>
          by_cases hHead : SqlSelect.isBlank c = true
          · simp [trimEnd, hRest, hHead]
          · simp [trimEnd, hRest, hHead]
      | cons d kept =>
          rw [hRest] at ih
          simpa [trimEnd, hRest] using ih

------------------------------------------------------------
-- Both Ends
------------------------------------------------------------

/- The text begins and ends with no blank. -/
def IsTrimmed
    (t : Text) : Prop :=
  t.head?.all (fun c => !SqlSelect.isBlank c) = true ∧
    t.getLast?.all (fun c => !SqlSelect.isBlank c) = true

instance
    (t : Text) :
    Decidable (IsTrimmed t) := by
  unfold IsTrimmed
  infer_instance

/- A text that ends with no blank loses nothing behind. -/
theorem isTrimmed_of_forall
    {t : Text}
    (hNone : ∀ c ∈ t, SqlSelect.isBlank c = false) :
    IsTrimmed t := by
  constructor
  · cases hHead : t.head? with
    | none => rfl
    | some c =>
        simpa using hNone c (List.mem_of_mem_head? hHead)
  · cases hLast : t.getLast? with
    | none => rfl
    | some c =>
        simpa using hNone c (List.mem_of_mem_getLast? hLast)

theorem trimEnd_eq_self
    {t : Text}
    (hLast :
      t.getLast?.all
        (fun c => !SqlSelect.isBlank c) = true) :
    trimEnd t = t := by
  rcases exists_blank_trimEnd t with ⟨b, hBlank, hText⟩
  cases hB : b.getLast? with
  | none =>
      rw [List.getLast?_eq_none_iff] at hB
      rw [hB, List.append_nil] at hText
      exact hText.symm
  | some c =>
      have hLastB : t.getLast? = some c := by
        rw [hText, List.getLast?_append, hB]
        rfl
      have hMem : c ∈ b := List.mem_of_getLast? hB
      have hIsBlank := isBlank_iff.mp hBlank c hMem
      simp [hLastB, hIsBlank] at hLast

theorem trim_eq_of_isTrimmed
    {t : Text}
    (hTrimmed : IsTrimmed t) :
    trim t = t := by
  have hStart : trimStart t = t := by
    cases t with
    | nil => rfl
    | cons c t =>
        apply trimStart_of_head
        simpa using hTrimmed.1
  rw [trim, hStart]
  exact trimEnd_eq_self hTrimmed.2

/- A text is its blanks and the trimmed text between them. -/
theorem exists_blanks_trim
    (t : Text) :
    ∃ b b', IsBlank b ∧ IsBlank b' ∧
      t = b ++ trim t ++ b' := by
  rcases exists_blank_trimEnd (trimStart t)
    with ⟨b', hBlank', hText⟩
  refine
    ⟨t.takeWhile SqlSelect.isBlank, b',
      isBlank_takeWhile t, hBlank', ?_⟩
  rw [List.append_assoc, trim, ← hText]
  exact (takeWhile_append_trimStart t).symm

theorem isTrimmed_trim
    (t : Text) :
    IsTrimmed (trim t) := by
  refine ⟨?_, getLast?_trimEnd (trimStart t)⟩
  rcases exists_blank_trimEnd (trimStart t) with ⟨b', -, hText⟩
  have hHead := head?_trimStart t
  rw [hText, List.head?_append] at hHead
  cases h : (trim t).head? with
  | none => rfl
  | some c =>
      rw [trim] at h
      simpa [h] using hHead

/- The ends of a text are those of what it begins and ends with. -/
theorem isTrimmed_append_append
    {s t : Text}
    (b : Text)
    (hSome : s ≠ [])
    (hSome' : t ≠ [])
    (hFirst : IsTrimmed s)
    (hSecond : IsTrimmed t) :
    IsTrimmed (s ++ (b ++ t)) := by
  constructor
  · rw [List.head?_append_of_ne_nil _ hSome]
    exact hFirst.1
  · rw [← List.append_assoc, List.getLast?_append_of_ne_nil _ hSome']
    exact hSecond.2

/- Two texts with a blank between them keep their ends. -/
theorem isTrimmed_append_blank_cons
    {s t : Text}
    (hSome : s ≠ [])
    (hSome' : t ≠ [])
    (hFirst : IsTrimmed s)
    (hSecond : IsTrimmed t) :
    IsTrimmed (s ++ ' ' :: t) :=
  isTrimmed_append_append [' '] hSome hSome' hFirst hSecond

/- There are no blanks at the end of a trimmed text. -/
theorem eq_nil_of_trim
    {s b : Text}
    (hTrim : trim (s ++ b) = s ++ b)
    (hBlank : IsBlank b) :
    b = [] := by
  by_contra hSome
  have hLast := (isTrimmed_trim (s ++ b)).2
  rw [hTrim, List.getLast?_append,
    List.getLast?_eq_some_getLast hSome] at hLast
  have hMem := List.getLast_mem hSome
  simp [isBlank_iff.mp hBlank _ hMem] at hLast

/- A text that ends with no blank keeps its end. -/
theorem getLast?_trim
    {t : Text}
    {c : Char}
    (hLast : t.getLast? = some c)
    (hOther : SqlSelect.isBlank c = false) :
    (trim t).getLast? = some c := by
  have hNone {b : Text} (hBlank : IsBlank b) : c ∉ b := by
    intro hMem
    rw [isBlank_iff.mp hBlank c hMem] at hOther
    cases hOther
  rcases exists_blanks_trim t with ⟨b, b', hBlank, hBlank', hText⟩
  rw [hText, List.getLast?_append, Option.or_eq_some_iff] at hLast
  rcases hLast with hBehind | ⟨-, hLast⟩
  · exact absurd (List.mem_of_getLast? hBehind) (hNone hBlank')
  · rw [List.getLast?_append, Option.or_eq_some_iff] at hLast
    rcases hLast with hTrim | ⟨-, hFront⟩
    · exact hTrim
    · exact absurd (List.mem_of_getLast? hFront) (hNone hBlank)

@[simp]
theorem trim_trim
    (t : Text) :
    trim (trim t) = trim t :=
  trim_eq_of_isTrimmed (isTrimmed_trim t)

/- Blanks around a text make no difference to trimming. -/
theorem trim_surround
    {b b' : Text}
    (t : Text)
    (hBlank : IsBlank b)
    (hBlank' : IsBlank b') :
    trim (b ++ t ++ b') = trim t := by
  rw [List.append_assoc, trim, trimStart_append _ hBlank]
  by_cases hText : IsBlank t
  · rw [trimStart_of_isBlank
      (isBlank_append.mpr ⟨hText, hBlank'⟩)]
    simp [trim, hText]
  · have hNotAll : ¬ ∀ c ∈ t, SqlSelect.isBlank c = true :=
      fun h => hText (isBlank_iff.mpr h)
    have hStart :
        trimStart (t ++ b') = trimStart t ++ b' := by
      rw [trimStart, List.dropWhile_append]
      have hRest :
          (t.dropWhile SqlSelect.isBlank).isEmpty = false := by
        rw [← Bool.not_eq_true, List.isEmpty_iff,
          List.dropWhile_eq_nil_iff]
        exact hNotAll
      simp [hRest, trimStart]
    rw [hStart, trimEnd_append _ hBlank', trim]

theorem trim_append_left
    {b : Text}
    (t : Text)
    (hBlank : IsBlank b) :
    trim (b ++ t) = trim t := by
  simpa using trim_surround t hBlank isBlank_nil

theorem trim_append_right
    (t : Text)
    {b : Text}
    (hBlank : IsBlank b) :
    trim (t ++ b) = trim t := by
  simpa using trim_surround t isBlank_nil hBlank

/- Nothing is left of a text exactly when it is blank. -/
theorem trim_eq_nil_iff
    {t : Text} :
    trim t = [] ↔ IsBlank t := by
  constructor
  · intro hTrim
    rcases exists_blanks_trim t
      with ⟨b, b', hBlank, hBlank', hText⟩
    rw [hText, hTrim]
    simp [hBlank, hBlank']
  · intro hBlank
    simp [trim, hBlank]

end Text

end SqlSelect
