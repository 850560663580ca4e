import SqlSelect.Proofs.Nesting.Walk
import SqlSelect.Proofs.Text.Case

/-
  Spellings of keywords. A keyword of several words is spelled
  with its words in any letter case and at least one blank
  between each two of them. Where a keyword is found, the text
  begins with a spelling of it, and a spelling that ends at
  the end of a word is found.

  Main statements:
    * `keywordLength?_eq_some_iff`
    * `delimitedLength?_of_spelled`
    * `delimitedLength?_append`
-/

namespace SqlSelect

namespace Text

------------------------------------------------------------
-- Spellings
------------------------------------------------------------

/-
  The text spells the words one after the other, with blanks
  in front of every word.
-/
def SpellsAfter : List Text → Text → Prop
  | [], t => t = []
  | word :: words, t =>
      ∃ gap spelled following,
        t = gap ++ (spelled ++ following) ∧
          gap ≠ [] ∧ IsBlank gap ∧
          SameWord spelled word ∧
          SpellsAfter words following

/-
  The text spells the words one after the other, with blanks
  between them.
-/
def Spells : List Text → Text → Prop
  | [], _ => False
  | word :: words, t =>
      ∃ spelled following,
        t = spelled ++ following ∧
          SameWord spelled word ∧
          SpellsAfter words following

/- Behind blanks the other words are spelled as a keyword. -/
theorem spellsAfter_cons_iff
    {word t : Text}
    {words : List Text} :
    SpellsAfter (word :: words) t ↔
      ∃ gap spelling,
        t = gap ++ spelling ∧ gap ≠ [] ∧ IsBlank gap ∧
          Spells (word :: words) spelling := by
  constructor
  · rintro ⟨gap, spelled, following, hText, hGap, hBlank, hRest⟩
    exact
      ⟨gap, _, hText, hGap, hBlank, spelled, following, rfl, hRest⟩
  · rintro
      ⟨gap, _, hText, hGap, hBlank, spelled, following, rfl, hRest⟩
    exact ⟨gap, spelled, following, hText, hGap, hBlank, hRest⟩

/- A single word is spelled by each of its spellings. -/
theorem spells_singleton
    {word t : Text}
    (hSame : SameWord t word) :
    Spells [word] t :=
  ⟨t, [], by simp, hSame, rfl⟩

/-
  A word without blanks spells a keyword only if it is one of
  the words of it.
-/
theorem not_spells_of_word
    {words : List Text}
    {t : Text}
    (hNames : ∀ c ∈ t, isNameChar c = true)
    (hOther : ∀ word ∈ words, ¬ SameWord t word) :
    ¬ Spells words t := by
  rcases words with _ | ⟨word, _ | ⟨next, words⟩⟩
  · exact id
  · rintro ⟨spelled, following, rfl, hSame, rfl⟩
    rw [List.append_nil] at hOther
    exact hOther word List.mem_cons_self hSame
  · rintro ⟨spelled, following, rfl, -, gap, s, u, rfl, hGap, hBlank, -⟩
    rcases List.exists_mem_of_ne_nil gap hGap with ⟨c, hMem⟩
    have hName := hNames c (by simp [hMem])
    rw [isBlank_iff] at hBlank
    rw [isNameChar_eq_false_of_isBlank (hBlank c hMem)] at hName
    exact absurd hName (by decide)

/- A spelling has letters and blanks only. -/
theorem plain_of_spellsAfter
    {words : List Text}
    {t : Text}
    (hWords : ∀ w ∈ words, IsLetters w)
    (hSpells : SpellsAfter words t) :
    ∀ c ∈ t, ¬ IsDelimiter c := by
  induction words generalizing t with
  | nil =>
      intro c hMem
      rw [hSpells] at hMem
      exact absurd hMem List.not_mem_nil
  | cons word words ih =>
      rcases hSpells
        with ⟨gap, spelled, following, rfl, -, hBlank, hSame,
          hFollowing⟩
      have hLetters :=
        isLetters_of_sameWord hSame
          (hWords word List.mem_cons_self)
      intro c hMem
      rcases List.mem_append.mp hMem with hGap | hRest
      · exact not_isDelimiter_of_isBlank
          (isBlank_iff.mp hBlank c hGap)
      · rcases List.mem_append.mp hRest with hWord | hRest
        · exact plain_of_isLetters hLetters c hWord
        · exact ih
            (fun w h => hWords w (List.mem_cons_of_mem word h))
            hFollowing c hRest

theorem plain_of_spells
    {words : List Text}
    {t : Text}
    (hWords : ∀ w ∈ words, IsLetters w)
    (hSpells : Spells words t) :
    ∀ c ∈ t, ¬ IsDelimiter c := by
  cases words with
  | nil => exact absurd hSpells id
  | cons word words =>
      rcases hSpells
        with ⟨spelled, following, rfl, hSame, hFollowing⟩
      have hLetters :=
        isLetters_of_sameWord hSame
          (hWords word List.mem_cons_self)
      intro c hMem
      rcases List.mem_append.mp hMem with hWord | hRest
      · exact plain_of_isLetters hLetters c hWord
      · exact plain_of_spellsAfter
          (fun w h => hWords w (List.mem_cons_of_mem word h))
          hFollowing c hRest

/- A spelling ends with a letter. -/
theorem getLast?_of_spellsAfter
    {words : List Text}
    {s t : Text}
    (hWords : ∀ w ∈ words, IsLetters w)
    (hFront : s.getLast?.any Char.isAlpha = true)
    (hSpells : SpellsAfter words t) :
    (s ++ t).getLast?.any Char.isAlpha = true := by
  induction words generalizing s t with
  | nil =>
      rw [hSpells, List.append_nil]
      exact hFront
  | cons word words ih =>
      rcases hSpells
        with ⟨gap, spelled, following, rfl, -, -, hSame,
          hFollowing⟩
      have hLetters :=
        isLetters_of_sameWord hSame
          (hWords word List.mem_cons_self)
      have hLast :
          (s ++ (gap ++ spelled)).getLast?.any Char.isAlpha =
            true := by
        rw [← List.append_assoc, List.getLast?_append,
          List.getLast?_eq_some_getLast hLetters.1]
        exact isAlpha_of_mem hLetters
          (List.getLast_mem hLetters.1)
      have hRest :=
        ih (fun w h => hWords w (List.mem_cons_of_mem word h))
          hLast hFollowing
      simpa using hRest

theorem getLast?_of_spells
    {words : List Text}
    {t : Text}
    (hWords : ∀ w ∈ words, IsLetters w)
    (hSpells : Spells words t) :
    t.getLast?.any Char.isAlpha = true := by
  cases words with
  | nil => exact absurd hSpells id
  | cons word words =>
      rcases hSpells
        with ⟨spelled, following, rfl, hSame, hFollowing⟩
      have hLetters :=
        isLetters_of_sameWord hSame
          (hWords word List.mem_cons_self)
      refine
        getLast?_of_spellsAfter
          (fun w h => hWords w (List.mem_cons_of_mem word h))
          ?_ hFollowing
      rw [List.getLast?_eq_some_getLast hLetters.1]
      exact isAlpha_of_mem hLetters
        (List.getLast_mem hLetters.1)

/- A spelling is not empty, and begins with a letter. -/
theorem head?_of_spells
    {words : List Text}
    {t : Text}
    (hWords : ∀ w ∈ words, IsLetters w)
    (hSpells : Spells words t) :
    t.head?.any Char.isAlpha = true := by
  cases words with
  | nil => exact absurd hSpells id
  | cons word words =>
      rcases hSpells with ⟨spelled, following, rfl, hSame, -⟩
      have hLetters :=
        isLetters_of_sameWord hSame
          (hWords word List.mem_cons_self)
      cases spelled with
      | nil => exact absurd rfl hLetters.1
      | cons c spelled =>
          exact isAlpha_of_mem hLetters List.mem_cons_self

------------------------------------------------------------
-- Finding a Spelling
------------------------------------------------------------

/- A text begins with a word of no more letters than it has. -/
theorem length_le_of_startsWord
    {word t : Text}
    (hStart : startsWord word t = true) :
    word.length ≤ t.length := by
  rcases startsWord_iff.mp hStart
    with ⟨spelled, rest, rfl, hSame⟩
  rw [← length_eq_of_sameWord hSame, List.length_append]
  omega

/- What stands at the start is a spelling of the word. -/
theorem sameWord_take_of_startsWord
    {word t : Text}
    (hStart : startsWord word t = true) :
    SameWord (t.take word.length) word :=
  eq_of_beq hStart

/- The text behind the blanks in front of it. -/
theorem drop_blanks
    (t : Text) :
    t.drop (t.takeWhile SqlSelect.isBlank).length =
      trimStart t := by
  have hDrop :
      (t.takeWhile SqlSelect.isBlank ++ trimStart t).drop
          (t.takeWhile SqlSelect.isBlank).length =
        trimStart t :=
    List.drop_left
  rwa [takeWhile_append_trimStart] at hDrop

/- The blanks in front of a text that begins with a letter. -/
theorem takeWhile_blank_append
    {gap t : Text}
    (hBlank : IsBlank gap)
    (hHead :
      t.head?.all
        (fun c => !SqlSelect.isBlank c) = true) :
    (gap ++ t).takeWhile SqlSelect.isBlank = gap := by
  rw [List.takeWhile_append_of_pos (isBlank_iff.mp hBlank)]
  cases t with
  | nil => simp
  | cons c t =>
      have hNot : SqlSelect.isBlank c = false := by
        simpa using hHead
      simp [hNot]

------------------------------------------------------------
-- Blanks in Front
------------------------------------------------------------

/- Blanks, or nothing, come next in the text. -/
def StartsBlank
    (t : Text) : Prop :=
  t.head?.all SqlSelect.isBlank = true

@[simp]
theorem startsBlank_cons
    {c : Char}
    {t : Text} :
    StartsBlank (c :: t) ↔ SqlSelect.isBlank c = true := by
  simp [StartsBlank]

theorem startsBlank_of_head
    {t : Text}
    (hHead : t.head?.any SqlSelect.isBlank = true) :
    StartsBlank t := by
  cases t with
  | nil => rfl
  | cons c t => simpa using hHead

theorem startsBlank_of_isBlank
    {t : Text}
    (hBlank : IsBlank t) :
    StartsBlank t := by
  cases t with
  | nil => rfl
  | cons c t => exact startsBlank_cons.mpr (isBlank_cons.mp hBlank).1

theorem startsBlank_append
    {b : Text}
    (t : Text)
    (hNotNil : b ≠ [])
    (hBlank : IsBlank b) :
    StartsBlank (b ++ t) := by
  cases b with
  | nil => exact absurd rfl hNotNil
  | cons c b => exact startsBlank_cons.mpr (isBlank_cons.mp hBlank).1

/- So do further words of a keyword. -/
theorem startsBlank_append_of_spellsAfter
    {words : List Text}
    {s t : Text}
    (hSpells : SpellsAfter words s)
    (hBlank : StartsBlank t) :
    StartsBlank (s ++ t) := by
  cases words with
  | nil =>
      rw [hSpells]
      exact hBlank
  | cons word words =>
      rcases hSpells
        with ⟨gap, spelled, following, rfl, hGap, hGapBlank, -, -⟩
      rw [List.append_assoc]
      exact startsBlank_append _ hGap hGapBlank

/- A blank is no letter. -/
theorem head?_of_startsBlank
    {t : Text}
    (hBlank : StartsBlank t) :
    t.head?.any Char.isAlpha = false := by
  cases t with
  | nil => rfl
  | cons c t =>
      exact isAlpha_eq_false_of_isBlank (startsBlank_cons.mp hBlank)

theorem seam_of_startsBlank
    (s : Text)
    {t : Text}
    (hBlank : StartsBlank t) :
    Seam s t := by
  cases t with
  | nil => exact Or.inl rfl
  | cons c t => exact Or.inr (Or.inl hBlank)

/- A keyword may stand in front of blanks. -/
theorem endsAfter_of_startsBlank
    {t : Text}
    (hBlank : StartsBlank t) :
    EndsAfter t := by
  cases t with
  | nil => rfl
  | cons c t => simp [EndsAfter, startsBlank_cons.mp hBlank]

theorem endsAfter_of_isBlank
    {t : Text}
    (hBlank : IsBlank t) :
    EndsAfter t :=
  endsAfter_of_startsBlank (startsBlank_of_isBlank hBlank)

/- What ends a word in front is the first character behind it. -/
theorem endsAfter_append_iff
    {s t : Text}
    (hNotNil : s ≠ []) :
    EndsAfter (s ++ t) ↔ EndsAfter s := by
  rw [EndsAfter, EndsAfter, List.head?_append_of_ne_nil _ hNotNil]

theorem endsAfter_append
    {s t : Text}
    (hFirst : EndsAfter s)
    (hSecond : EndsAfter t) :
    EndsAfter (s ++ t) := by
  cases s with
  | nil => exact hSecond
  | cons c s => exact hFirst

/- A word ends in front of the words that follow it. -/
theorem endsAfter_of_spellsAfter
    {words : List Text}
    {t : Text}
    (hSpells : SpellsAfter words t) :
    EndsAfter t := by
  have hBlank := startsBlank_append_of_spellsAfter hSpells (t := []) rfl
  rw [List.append_nil] at hBlank
  exact endsAfter_of_startsBlank hBlank

/- A word ends in front of blanks and a parenthesis. -/
theorem endsAfter_open
    {gap : Text}
    (t : Text)
    (hBlank : IsBlank gap) :
    EndsAfter (gap ++ '(' :: t) :=
  endsAfter_append (endsAfter_of_isBlank hBlank) (by simp [EndsAfter])

end Text

open Text

/- What is found is a spelling, by induction on the words. -/
theorem exists_spellsAfter
    {words : List Text}
    {t : Text}
    {length : Nat}
    (hFound : followingLength? words t = some length) :
    ∃ k rest, t = k ++ rest ∧ k.length = length ∧
      SpellsAfter words k := by
  induction words generalizing t length with
  | nil =>
      rw [followingLength?, Option.some.injEq] at hFound
      exact ⟨[], t, rfl, hFound, rfl⟩
  | cons word words ih =>
      simp only [followingLength?] at hFound
      split at hFound
      · exact absurd hFound (by simp)
      · rename_i hGap
        simp only [Option.ite_none_right_eq_some,
          Option.map_eq_some_iff] at hFound
        rcases hFound with ⟨hStart, following, hFollowing, rfl⟩
        have hLe := length_le_of_startsWord hStart
        rcases ih hFollowing with ⟨k, rest, hSplit, hLength, hSpells⟩
        -- The text is the gap, the word and what follows.
        let gap := t.takeWhile SqlSelect.isBlank
        let spelled := (t.drop gap.length).take word.length
        refine
          ⟨gap ++ (spelled ++ k), rest, ?_, ?_, gap, spelled,
            k, rfl, ?_, isBlank_takeWhile t, ?_, hSpells⟩
        · have hTake : t.take gap.length = gap :=
            (List.prefix_iff_eq_take.mp
              (List.takeWhile_prefix _)).symm
          calc
            t = t.take gap.length ++ t.drop gap.length :=
              (List.take_append_drop _ _).symm
            _ = gap ++ (spelled ++ (k ++ rest)) := by
              rw [hTake, ← hSplit, List.take_append_drop]
            _ = gap ++ (spelled ++ k) ++ rest := by simp
        · simp only [List.length_append, spelled,
            List.length_take, hLength, gap]
          omega
        · intro hNil
          exact hGap (by simpa [gap] using congrArg List.length hNil)
        · exact sameWord_take_of_startsWord hStart

/- A spelling is found as far as it goes. -/
theorem followingLength?_of_spellsAfter
    {words : List Text}
    {k : Text}
    (hWords : ∀ w ∈ words, IsLetters w)
    (hSpells : SpellsAfter words k)
    (rest : Text) :
    followingLength? words (k ++ rest) = some k.length := by
  induction words generalizing k with
  | nil =>
      rw [SpellsAfter] at hSpells
      rw [hSpells, followingLength?, List.length_nil]
  | cons word words ih =>
      have hWord := hWords word List.mem_cons_self
      rcases hSpells
        with ⟨gap, spelled, following, rfl, hGap, hBlank, hSame, hSpells⟩
      have hSpelled := isLetters_of_sameWord hSame hWord
      have hHead :
          (spelled ++ (following ++ rest)).head?.all
            (fun c => !SqlSelect.isBlank c) = true := by
        cases spelled with
        | nil => exact absurd rfl hSpelled.1
        | cons c spelled =>
            simp [isBlank_eq_false_of_mem hSpelled List.mem_cons_self]
      have hTake := takeWhile_blank_append hBlank hHead
      have hText :
          gap ++ (spelled ++ following) ++ rest =
            gap ++ (spelled ++ (following ++ rest)) := by
        simp
      have hStart :
          startsWord word (spelled ++ (following ++ rest)) = true :=
        startsWord_iff.mpr ⟨spelled, _, rfl, hSame⟩
      have hFollowing :=
        ih (fun w h => hWords w (List.mem_cons_of_mem word h)) hSpells
      have hDrop :
          (spelled ++ (following ++ rest)).drop word.length =
            following ++ rest := by
        rw [← length_eq_of_sameWord hSame, List.drop_left]
      simp only [followingLength?, hText, hTake, List.drop_left]
      rw [if_neg (by simpa using hGap), if_pos hStart, hDrop, hFollowing]
      simp [length_eq_of_sameWord hSame, Nat.add_assoc]

theorem followingLength?_eq_some_iff
    {words : List Text}
    {t : Text}
    {length : Nat}
    (hWords : ∀ w ∈ words, IsLetters w) :
    followingLength? words t = some length ↔
      ∃ k rest, t = k ++ rest ∧ k.length = length ∧
        SpellsAfter words k := by
  constructor
  · exact exists_spellsAfter
  · rintro ⟨k, rest, rfl, rfl, hSpells⟩
    exact followingLength?_of_spellsAfter hWords hSpells rest

/- A keyword is found where the text begins with a spelling. -/
theorem keywordLength?_eq_some_iff
    {words : List Text}
    {t : Text}
    {length : Nat}
    (hWords : ∀ w ∈ words, IsLetters w) :
    keywordLength? words t = some length ↔
      ∃ k rest, t = k ++ rest ∧ k.length = length ∧
        Spells words k := by
  cases words with
  | nil =>
      simp [keywordLength?, Spells]
  | cons word words =>
      have hRest : ∀ w ∈ words, IsLetters w :=
        fun w h => hWords w (List.mem_cons_of_mem word h)
      constructor
      · intro hFound
        simp only [keywordLength?,
          Option.ite_none_right_eq_some,
          Option.map_eq_some_iff] at hFound
        rcases hFound with ⟨hStart, following, hFollowing, rfl⟩
        have hLe := length_le_of_startsWord hStart
        rcases (followingLength?_eq_some_iff hRest).mp hFollowing
          with ⟨k, rest, hSplit, hLength, hSpells⟩
        refine
          ⟨t.take word.length ++ k, rest, ?_, ?_,
            t.take word.length, k, rfl, ?_, hSpells⟩
        · rw [List.append_assoc, ← hSplit,
            List.take_append_drop]
        · simp only [List.length_append, List.length_take,
            hLength]
          omega
        · exact sameWord_take_of_startsWord hStart
      · rintro ⟨k, rest, rfl, rfl, spelled, following, rfl,
          hSame, hSpells⟩
        have hStart :
            startsWord word (spelled ++ (following ++ rest)) =
              true :=
          startsWord_iff.mpr ⟨spelled, _, rfl, hSame⟩
        have hFollowing :
            followingLength? words (following ++ rest) =
              some following.length :=
          (followingLength?_eq_some_iff hRest).mpr
            ⟨following, rest, rfl, rfl, hSpells⟩
        have hDrop :
            (spelled ++ (following ++ rest)).drop word.length =
              following ++ rest := by
          rw [← length_eq_of_sameWord hSame, List.drop_left]
        rw [List.append_assoc, keywordLength?, if_pos hStart,
          hDrop, hFollowing]
        simp [length_eq_of_sameWord hSame]

/- A spelling that ends at the end of a word is found. -/
theorem delimitedLength?_of_spelled
    {words : List Text}
    {k t : Text}
    (hWords : ∀ w ∈ words, IsLetters w)
    (hSpells : Spells words k)
    (hEnds : EndsAfter t) :
    delimitedLength? words (k ++ t) = some k.length := by
  have hFound :
      keywordLength? words (k ++ t) = some k.length :=
    (keywordLength?_eq_some_iff hWords).mpr
      ⟨k, t, rfl, rfl, hSpells⟩
  rw [delimitedLength?, hFound, Option.filter_some,
    List.drop_left]
  simp [hEnds]

/- Where a keyword is found, the text begins with a spelling. -/
theorem exists_spelled_of_delimitedLength?
    {words : List Text}
    {t : Text}
    {length : Nat}
    (hWords : ∀ w ∈ words, IsLetters w)
    (hFound : delimitedLength? words t = some length) :
    ∃ k rest, t = k ++ rest ∧ k.length = length ∧
      Spells words k ∧ EndsAfter rest := by
  rw [delimitedLength?, Option.filter_eq_some_iff] at hFound
  rcases hFound with ⟨hKeyword, hEnds⟩
  rcases (keywordLength?_eq_some_iff hWords).mp hKeyword
    with ⟨k, rest, rfl, rfl, hSpells⟩
  refine ⟨k, rest, rfl, rfl, hSpells, ?_⟩
  rw [List.drop_left] at hEnds
  simpa using hEnds

/- A text without a letter in front begins with no keyword. -/
theorem delimitedLength?_eq_none_of_head
    {words : List Text}
    {t : Text}
    (hWords : ∀ w ∈ words, IsLetters w)
    (hHead : t.head?.any Char.isAlpha = false) :
    delimitedLength? words t = none := by
  cases hFound : delimitedLength? words t with
  | none => rfl
  | some length =>
      rcases exists_spelled_of_delimitedLength? hWords hFound
        with ⟨k, rest, rfl, -, hSpells, -⟩
      have hAlpha := head?_of_spells hWords hSpells
      cases k with
      | nil => exact absurd hAlpha (by simp)
      | cons c k => simp_all

------------------------------------------------------------
-- Keywords in Front of a Seam
------------------------------------------------------------

/- Dropping a part of the first text leaves the second. -/
theorem drop_append_of_startsWord
    {word s : Text}
    (t : Text)
    (hStart : startsWord word s = true) :
    (s ++ t).drop word.length = s.drop word.length ++ t :=
  List.drop_append_of_le_length (length_le_of_startsWord hStart)

theorem followingLength?_append
    {words : List Text}
    {s t : Text}
    (hWords : ∀ w ∈ words, IsLetters w)
    (hSeam : s ≠ [] → Seam s t)
    (hNext : ∀ w ∈ words, startsWord w (trimStart t) = false) :
    followingLength? words (s ++ t) =
      followingLength? words s := by
  induction words generalizing s with
  | nil => rfl
  | cons word words ih =>
      have hWord := hWords word List.mem_cons_self
      simp only [followingLength?, drop_blanks]
      by_cases hBlank : IsBlank s
      · -- The word would have to begin behind the seam.
        rw [trimStart_append t hBlank, hNext word List.mem_cons_self,
          trimStart_of_isBlank hBlank, startsWord_nil hWord]
        simp
      · have hNotNil : s ≠ [] := by
          rintro rfl
          exact hBlank isBlank_nil
        have hStartNil : trimStart s ≠ [] := fun hNil =>
          hBlank (isBlank_iff.mpr (List.dropWhile_eq_nil_iff.mp hNil))
        have hSeamStart :=
          seam_of_suffix (List.dropWhile_suffix _) hStartNil
            (hSeam hNotNil)
        rw [takeWhile_append_of_not_isBlank t hBlank,
          trimStart_append_of_not_isBlank t hBlank,
          startsWord_append hWord hStartNil hSeamStart]
        by_cases hStart : startsWord word (trimStart s) = true
        · rw [drop_append_of_startsWord t hStart,
            ih fun w h => hWords w (List.mem_cons_of_mem word h)]
          · intro hRestNil
            exact seam_of_suffix (List.drop_suffix _ _) hRestNil
              hSeamStart
          · exact fun w h => hNext w (List.mem_cons_of_mem word h)
        · simp [hStart]

/- A spelling ends with a letter, so a seam behind it is a blank. -/
theorem endsAfter_of_seam
    {words : List Text}
    {k t : Text}
    (hWords : ∀ w ∈ words, IsLetters w)
    (hSpells : Spells words k)
    (hSeam : Seam k t) :
    EndsAfter t := by
  rcases hSeam with rfl | hHead | hLast
  · rfl
  · exact endsAfter_of_startsBlank (startsBlank_of_head hHead)
  · have hAlpha := getLast?_of_spells hWords hSpells
    cases hGet : k.getLast? with
    | none => simp [hGet] at hLast
    | some c =>
        simp only [hGet, Option.any_some] at hLast hAlpha
        rw [isBlank_eq_false_of_isAlpha hAlpha] at hLast
        exact absurd hLast (by decide)

/-
  A keyword is found at the start of a text or not, whatever
  stands behind a seam, if no further word of it stands there.
-/
theorem delimitedLength?_append
    {words : List Text}
    {s t : Text}
    (hWords : ∀ w ∈ words, IsLetters w)
    (hNotNil : s ≠ [])
    (hSeam : Seam s t)
    (hNext :
      ∀ w ∈ words.tail, startsWord w (trimStart t) = false) :
    delimitedLength? words (s ++ t) =
      delimitedLength? words s := by
  have hKeyword :
      keywordLength? words (s ++ t) =
        keywordLength? words s := by
    cases words with
    | nil => rfl
    | cons word words =>
        have hWord := hWords word List.mem_cons_self
        have hTail :
            ∀ w ∈ words, startsWord w (trimStart t) = false :=
          hNext
        simp only [keywordLength?,
          startsWord_append hWord hNotNil hSeam]
        by_cases hStart : startsWord word s = true
        · rw [drop_append_of_startsWord t hStart,
            followingLength?_append _ _ hTail]
          · exact fun w h => hWords w (List.mem_cons_of_mem word h)
          · intro hRestNil
            exact seam_of_suffix (List.drop_suffix _ _) hRestNil
              hSeam
        · simp [hStart]
  rw [delimitedLength?, delimitedLength?, hKeyword]
  cases hFound : keywordLength? words s with
  | none => rfl
  | some length =>
      rcases (keywordLength?_eq_some_iff hWords).mp hFound
        with ⟨k, rest, rfl, rfl, hSpells⟩
      simp only [Option.filter_some, List.append_assoc,
        List.drop_left]
      cases rest with
      | cons c rest => rfl
      | nil =>
          rw [List.append_nil] at hSeam
          have hEnds := endsAfter_of_seam hWords hSpells hSeam
          have hNone : EndsAfter [] := rfl
          simp [hEnds, hNone]

end SqlSelect
