import SqlSelect.Nesting.Keyword
import SqlSelect.Proofs.Text.Characters
import SqlSelect.Proofs.Text.Trimming

/-
  Words up to letter case. Keywords consist of ASCII letters,
  and so does every spelling of them. Whether a text begins
  with such a word is decided before the first blank.

  Main statements:
    * `Text.startsWord_iff`
    * `Text.startsWord_append`
    * `Text.startsWord_eq_false_of_initial`
    * `Text.isLetters_of_sameWord`
-/

namespace SqlSelect

namespace Text

------------------------------------------------------------
-- Letter Case
------------------------------------------------------------

@[simp]
theorem foldCase_append
    (s t : Text) :
    foldCase (s ++ t) = foldCase s ++ foldCase t := by
  simp [foldCase]

@[simp]
theorem length_foldCase
    (t : Text) :
    (foldCase t).length = t.length := by
  simp [foldCase]

theorem sameWord_refl
    (t : Text) :
    SameWord t t := rfl

theorem length_eq_of_sameWord
    {s t : Text}
    (hSame : SameWord s t) :
    s.length = t.length := by
  simpa using congrArg List.length hSame

/- No text spells two words of different lengths. -/
theorem not_sameWord_of_length
    {s t u : Text}
    (hSame : SameWord s t)
    (hLength : t.length ≠ u.length) :
    ¬ SameWord s u := by
  intro hOther
  rw [← length_eq_of_sameWord hSame, length_eq_of_sameWord hOther]
    at hLength
  exact hLength rfl

/-
  A text begins with a word exactly when it is a spelling of
  the word and something else.
-/
theorem startsWord_iff
    {word t : Text} :
    startsWord word t = true ↔
      ∃ spelled rest,
        t = spelled ++ rest ∧ SameWord spelled word := by
  rw [startsWord, beq_iff_eq]
  constructor
  · intro hStart
    refine
      ⟨t.take word.length, t.drop word.length, ?_, hStart⟩
    exact (List.take_append_drop word.length t).symm
  · rintro ⟨spelled, rest, rfl, hSame⟩
    rw [← length_eq_of_sameWord hSame, List.take_left]
    exact hSame

------------------------------------------------------------
-- Words of Letters
------------------------------------------------------------

/- The text consists of ASCII letters, and has some. -/
def IsLetters
    (t : Text) : Prop :=
  t ≠ [] ∧ t.all Char.isAlpha = true

instance
    (t : Text) :
    Decidable (IsLetters t) := by
  unfold IsLetters
  infer_instance

/- Every spelling of a word of letters is one. -/
theorem isLetters_of_sameWord
    {s t : Text}
    (hSame : SameWord s t)
    (hLetters : IsLetters t) :
    IsLetters s := by
  have hLength := length_eq_of_sameWord hSame
  refine ⟨?_, ?_⟩
  · intro hNil
    rw [hNil, List.length_nil] at hLength
    exact hLetters.1 (List.length_eq_zero_iff.mp hLength.symm)
  · have hFold :
        (foldCase s).all Char.isAlpha =
          (foldCase t).all Char.isAlpha :=
      congrArg (fun u => List.all u Char.isAlpha) hSame
    have hAll (u : Text) :
        (foldCase u).all Char.isAlpha =
          u.all Char.isAlpha := by
      simp only [foldCase, List.all_map]
      congr 1
      funext c
      exact isAlpha_toLower c
    rw [← hAll s, hFold, hAll t]
    exact hLetters.2

theorem isAlpha_of_mem
    {t : Text}
    (hLetters : IsLetters t)
    {c : Char}
    (hMem : c ∈ t) :
    c.isAlpha = true :=
  List.all_eq_true.mp hLetters.2 c hMem

/- A word of letters is a name, and nothing in it a delimiter. -/
theorem isNameChar_of_isLetters
    {t : Text}
    (hLetters : IsLetters t) :
    ∀ c ∈ t, isNameChar c = true :=
  fun _ hMem => isNameChar_of_isAlpha (isAlpha_of_mem hLetters hMem)

theorem plain_of_isLetters
    {t : Text}
    (hLetters : IsLetters t) :
    ∀ c ∈ t, ¬ IsDelimiter c :=
  fun c hMem =>
    not_isDelimiter_of_isNameChar (isNameChar_of_isLetters hLetters c hMem)

/- A letter of a word is no blank. -/
theorem isBlank_eq_false_of_mem
    {t : Text}
    (hLetters : IsLetters t)
    {c : Char}
    (hMem : c ∈ t) :
    SqlSelect.isBlank c = false :=
  isBlank_eq_false_of_isAlpha (isAlpha_of_mem hLetters hMem)

------------------------------------------------------------
-- First Letters
------------------------------------------------------------

/- The first letter of a text, made small. -/
def initial
    (t : Text) : Option Char :=
  t.head?.map Char.toLower

theorem startsWord_eq_false_of_initial
    {word t : Text}
    (hNotNil : word ≠ [])
    (hInitial : initial word ≠ initial t) :
    startsWord word t = false := by
  rw [← Bool.not_eq_true, startsWord_iff]
  rintro ⟨spelled, rest, rfl, hSame⟩
  apply hInitial
  have hLength := length_eq_of_sameWord hSame
  cases word with
  | nil => exact absurd rfl hNotNil
  | cons a word =>
      cases spelled with
      | nil => simp at hLength
      | cons b spelled =>
          have hHead : b.toLower = a.toLower := by
            have hFold := congrArg List.head? hSame
            simpa [foldCase] using hFold
          simp [initial, hHead]

/- A spelling has the first letter of the first word. -/
theorem initial_of_sameWord
    {spelled word : Text}
    (hSame : SameWord spelled word) :
    initial spelled = initial word := by
  have hFold := congrArg List.head? hSame
  simpa [initial, foldCase] using hFold

theorem initial_append
    {s : Text}
    (t : Text)
    (hNotNil : s ≠ []) :
    initial (s ++ t) = initial s := by
  cases s with
  | nil => exact absurd rfl hNotNil
  | cons c s => rfl

------------------------------------------------------------
-- Words in Front of a Seam
------------------------------------------------------------

/-
  There is a seam between two texts where a word cannot run
  from the first into the second: a blank ends the first or
  begins the second, or there is no second.
-/
def Seam
    (s t : Text) : Prop :=
  t = [] ∨
    t.head?.any SqlSelect.isBlank = true ∨
      s.getLast?.any SqlSelect.isBlank = true

instance
    (s t : Text) :
    Decidable (Seam s t) := by
  unfold Seam
  infer_instance

/- There is a seam behind the last part of the first text. -/
theorem seam_of_suffix
    {s u t : Text}
    (hSuffix : u <:+ s)
    (hNotNil : u ≠ [])
    (hSeam : Seam s t) :
    Seam u t := by
  rcases hSeam with hNil | hHead | hLast
  · exact Or.inl hNil
  · exact Or.inr (Or.inl hHead)
  · refine Or.inr (Or.inr ?_)
    rcases hSuffix with ⟨front, rfl⟩
    cases hGet : u.getLast? with
    | none =>
        exact absurd (List.getLast?_eq_none_iff.mp hGet) hNotNil
    | some c =>
        rw [List.getLast?_append, hGet] at hLast
        simpa using hLast

/-
  Whether a text begins with a word of letters does not
  depend on what stands behind a seam.
-/
theorem startsWord_append
    {word s t : Text}
    (hWord : IsLetters word)
    (hNotNil : s ≠ [])
    (hSeam : Seam s t) :
    startsWord word (s ++ t) = startsWord word s := by
  rw [Bool.eq_iff_iff, startsWord_iff, startsWord_iff]
  constructor
  · rintro ⟨spelled, rest, hText, hSame⟩
    have hSpelled := isLetters_of_sameWord hSame hWord
    rcases List.append_eq_append_iff.mp hText with
      ⟨middle, hSpelledEq, hTail⟩ | ⟨middle, hFront, -⟩
    · -- The word reaches the seam, where a blank stops it.
      cases middle with
      | nil =>
          refine ⟨spelled, [], ?_, hSame⟩
          simp [hSpelledEq]
      | cons c middle =>
          exfalso
          rcases hSeam with hNil | hHead | hLast
          · simp [hNil] at hTail
          · have hMem : c ∈ spelled := by
              simp [hSpelledEq]
            rw [hTail] at hHead
            simp [isBlank_eq_false_of_mem hSpelled hMem]
              at hHead
          · cases hGet : s.getLast? with
            | none =>
                exact hNotNil
                  (List.getLast?_eq_none_iff.mp hGet)
            | some d =>
                have hMem : d ∈ spelled := by
                  rw [hSpelledEq]
                  exact List.mem_append_left _
                    (List.mem_of_getLast? hGet)
                rw [hGet] at hLast
                simp [isBlank_eq_false_of_mem hSpelled hMem]
                  at hLast
    · exact ⟨spelled, middle, hFront, hSame⟩
  · rintro ⟨spelled, rest, rfl, hSame⟩
    exact ⟨spelled, rest ++ t, by simp, hSame⟩

/- A word of letters does not begin where a text is empty. -/
theorem startsWord_nil
    {word : Text}
    (hWord : IsLetters word) :
    startsWord word [] = false := by
  rw [← Bool.not_eq_true, startsWord_iff]
  rintro ⟨spelled, rest, hText, hSame⟩
  have hSpelled := isLetters_of_sameWord hSame hWord
  simp only [List.nil_eq, List.append_eq_nil_iff] at hText
  exact hSpelled.1 hText.1

end Text

end SqlSelect
