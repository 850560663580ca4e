import SqlSelect.Proofs.Recall.Literals

/-
  Dates in writing. A date that was read is read back from its
  text down to the millisecond, whatever the form and the year
  of the text that it was read from, and as it was exactly if
  that text has nothing but zeros from the fourth place of the
  second to the ninth.

  Main statements:
    * `Text.pointPlaces`
    * `Timestamp.HasPlaces`
    * `Timestamp.exists_places_of_readFraction`
    * `Text.Wraps`
    * `Literal.exists_wraps_of_readDate?`
    * `Literal.ofText?_written_of_date`
-/

namespace SqlSelect

namespace Text

/- The digits behind the first point of a text. -/
def pointPlaces
    (t : Text) : Text :=
  match cutAt? '.' t with
  | some (_, behind) => behind.takeWhile Char.isDigit
  | none => []

end Text

namespace Timestamp

------------------------------------------------------------
-- Digits That Are Read
------------------------------------------------------------

theorem stopsDigits_of_takeWhile
    {t : Text}
    (hNone : t.takeWhile Char.isDigit = []) :
    StopsDigits t := by
  cases t with
  | nil => rfl
  | cons c t =>
      rw [List.takeWhile_cons] at hNone
      cases hDigit : c.isDigit with
      | true =>
          rw [hDigit, if_pos rfl] at hNone
          exact absurd hNone (List.cons_ne_nil _ _)
      | false => exact hDigit

/-
  Digits are read to the end of them, or as many as may be
  read at most, and there are some.
-/
theorem parts_of_readDigits
    {most : Nat}
    {t found rest : Text}
    (hRead : readDigits most t = some (found, rest)) :
    t = found ++ rest ∧ IsDigits found ∧ found ≠ [] ∧
      found.length ≤ most ∧
      (found.length = most ∨ StopsDigits rest) := by
  have hPrefix : (t.take most).takeWhile Char.isDigit <+: t :=
    (List.takeWhile_prefix _).trans (List.take_prefix _ _)
  have hDigits : IsDigits ((t.take most).takeWhile Char.isDigit) :=
    List.all_takeWhile
  have hMost :
      ((t.take most).takeWhile Char.isDigit).length ≤ most :=
    (List.takeWhile_prefix _).length_le.trans
      (List.length_take_le _ _)
  rw [readDigits] at hRead
  rcases hFound : (t.take most).takeWhile Char.isDigit with _ | ⟨c, more⟩
  · simp [hFound] at hRead
  simp only [hFound, List.cons_ne_nil, if_false, Option.some.injEq,
    Prod.mk.injEq] at hRead
  rw [hFound] at hPrefix hDigits hMost
  rcases hRead with ⟨rfl, rfl⟩
  have hText := List.prefix_iff_eq_append.mp hPrefix
  refine
    ⟨hText.symm, hDigits, List.cons_ne_nil _ _, hMost, ?_⟩
  generalize t.drop (c :: more).length = rest at hText
  generalize c :: more = found at *
  rcases hMost.eq_or_lt with hFull | hLess
  · exact Or.inl hFull
  · right
    rw [← hText, List.take_append, List.take_of_length_le hMost,
      List.takeWhile_append_of_pos
        (fun c hMem => isDigit_of_mem hDigits hMem),
      List.append_right_eq_self] at hFound
    cases rest with
    | nil => rfl
    | cons d rest =>
        have hMore :
            most - found.length =
              (most - found.length - 1) + 1 := by
          omega
        rw [hMore, List.take_succ_cons] at hFound
        have hStop := stopsDigits_of_takeWhile hFound
        exact hStop

------------------------------------------------------------
-- What Readers Leave
------------------------------------------------------------

/- The text has no point and no quote. -/
def IsPlain
    (t : Text) : Prop :=
  ∀ c ∈ t, c ≠ '.' ∧ c ≠ '\''

/- The rest is what follows a plain part of the text. -/
def Leaves
    (t rest : Text) : Prop :=
  ∃ front, t = front ++ rest ∧ IsPlain front

theorem isPlain_of_isDigits
    {t : Text}
    (hDigits : IsDigits t) :
    IsPlain t := by
  intro c hMem
  have hDigit := isDigit_of_mem hDigits hMem
  constructor
  · rintro rfl
    exact absurd hDigit (by decide)
  · rintro rfl
    exact absurd hDigit (by decide)

theorem isPlain_of_isBlank
    {t : Text}
    (hBlank : Text.IsBlank t) :
    IsPlain t := by
  intro c hMem
  have hChar := Text.isBlank_iff.mp hBlank c hMem
  constructor
  · rintro rfl
    exact absurd hChar (by decide)
  · rintro rfl
    exact absurd hChar (by decide)

theorem Leaves.trans
    {t u rest : Text}
    (hFirst : Leaves t u)
    (hSecond : Leaves u rest) :
    Leaves t rest := by
  rcases hFirst with ⟨front, rfl, hFront⟩
  rcases hSecond with ⟨next, rfl, hNext⟩
  refine ⟨front ++ next, (List.append_assoc _ _ _).symm, ?_⟩
  intro c hMem
  rcases List.mem_append.mp hMem with hBefore | hBehind
  · exact hFront c hBefore
  · exact hNext c hBehind

theorem leaves_trimStart
    (t : Text) :
    Leaves t (Text.trimStart t) :=
  ⟨t.takeWhile isBlank, (Text.takeWhile_append_trimStart t).symm,
    isPlain_of_isBlank (Text.isBlank_takeWhile t)⟩

theorem leaves_readDigits
    {most : Nat}
    {t found rest : Text}
    (hRead : readDigits most t = some (found, rest)) :
    Leaves t rest := by
  rcases parts_of_readDigits hRead with ⟨hText, hDigits, -⟩
  exact ⟨found, hText, isPlain_of_isDigits hDigits⟩

theorem leaves_readNumber
    {t rest : Text}
    {n : Nat}
    (hRead : readNumber t = some (n, rest)) :
    Leaves t rest := by
  rw [readNumber, Option.map_eq_some_iff] at hRead
  rcases hRead with ⟨⟨found, after⟩, hDigits, hEq⟩
  cases hEq
  exact (leaves_trimStart t).trans (leaves_readDigits hDigits)

theorem leaves_cons
    {c : Char}
    (t : Text)
    (hPlain : c ≠ '.' ∧ c ≠ '\'') :
    Leaves (c :: t) t := by
  refine ⟨[c], rfl, ?_⟩
  intro d hMem
  rw [List.mem_singleton.mp hMem]
  exact hPlain

theorem leaves_readYear
    {t rest : Text}
    {year : Int}
    (hRead : readYear t = some (year, rest)) :
    Leaves t rest := by
  have hStart := leaves_trimStart t
  rw [readYear] at hRead
  split at hRead
  · rename_i behind hText
    rw [hText] at hStart
    rcases Option.map_eq_some_iff.mp hRead
      with ⟨⟨found, after⟩, hDigits, hEq⟩
    cases hEq
    exact
      (hStart.trans (leaves_cons behind (by decide))).trans
        (leaves_readDigits hDigits)
  · rename_i behind hText
    rw [hText] at hStart
    rcases Option.map_eq_some_iff.mp hRead
      with ⟨⟨found, after⟩, hDigits, hEq⟩
    cases hEq
    exact
      (hStart.trans (leaves_cons behind (by decide))).trans
        (leaves_readDigits hDigits)
  · rcases Option.map_eq_some_iff.mp hRead
      with ⟨⟨found, after⟩, hDigits, hEq⟩
    cases hEq
    exact hStart.trans (leaves_readDigits hDigits)

theorem leaves_readMark
    {c : Char}
    {t rest : Text}
    (hPlain : c ≠ '.' ∧ c ≠ '\'')
    (hRead : readMark c t = some ((), rest)) :
    Leaves t rest := by
  rw [readMark, Option.ite_none_right_eq_some] at hRead
  rcases hRead with ⟨hHead, hEq⟩
  cases hEq
  cases t with
  | nil => cases hHead
  | cons d t =>
      cases hHead
      exact leaves_cons t hPlain

theorem leaves_dayParts
    {separator : Char}
    {t rest : Text}
    {day : Int × Nat × Nat}
    (hPlain : separator ≠ '.' ∧ separator ≠ '\'')
    (hRead : dayParts separator t = some (day, rest)) :
    Leaves t rest := by
  simp only [dayParts, Option.bind_eq_bind, Option.bind_eq_some_iff]
    at hRead
  rcases hRead
    with ⟨⟨y, t₁⟩, hYear, ⟨⟨⟩, t₂⟩, hFirst, ⟨m, t₃⟩, hMonth,
      ⟨⟨⟩, t₄⟩, hSecond, ⟨d, t₅⟩, hDay, hEq⟩
  cases hEq
  exact
    ((((leaves_readYear hYear).trans
      (leaves_readMark hPlain hFirst)).trans
      (leaves_readNumber hMonth)).trans
      (leaves_readMark hPlain hSecond)).trans
      (leaves_readNumber hDay)

/- The places of the second are read behind the rest of it. -/
theorem exists_readFraction_of_timeParts
    {t rest : Text}
    {hour minute second places : Nat}
    (hRead :
      timeParts t = some ((hour, minute, second, places), rest)) :
    ∃ tail,
      Leaves t tail ∧ readFraction tail = some (places, rest) := by
  simp only [timeParts, Option.bind_eq_bind,
    Option.bind_eq_some_iff] at hRead
  rcases hRead
    with ⟨⟨h, t₁⟩, hHour, ⟨⟨⟩, t₂⟩, hFirst, ⟨m, t₃⟩, hMinute,
      ⟨⟨⟩, t₄⟩, hSecond, ⟨s, tail⟩, hLast, ⟨n, t₅⟩, hPlaces, hEq⟩
  cases hEq
  refine ⟨tail, ?_, hPlaces⟩
  exact
    ((((leaves_readNumber hHour).trans
      (leaves_readMark (by decide) hFirst)).trans
      (leaves_readNumber hMinute)).trans
      (leaves_readMark (by decide) hSecond)).trans
      (leaves_readNumber hLast)

/-
  The text ends with the places of a second, or has none, and
  is plain in front of them.
-/
def HasPlaces
    (t : Text)
    (nanosecond : Nat) : Prop :=
  ∃ tail,
    Leaves t tail ∧ readFraction tail = some (nanosecond, [])

theorem hasPlaces_of_readMoment?
    {separator : Char}
    {text : Text}
    {t : Timestamp}
    (hPlain : separator ≠ '.' ∧ separator ≠ '\'')
    (hRead : readMoment? separator text = some t) :
    HasPlaces text t.nanosecond := by
  simp only [readMoment?, Option.bind_eq_bind,
    Option.bind_eq_some_iff] at hRead
  rcases hRead
    with ⟨⟨day, behind⟩, hDay, ⟨⟨h, m, s, n⟩, rest⟩, hTime, hMoment⟩
  rw [Option.ite_none_right_eq_some] at hMoment
  rcases hMoment with ⟨⟨rfl, -⟩, hEq⟩
  cases hEq
  rcases exists_readFraction_of_timeParts hTime
    with ⟨tail, hLeaves, hPlaces⟩
  exact
    ⟨tail,
      ((leaves_dayParts hPlain hDay).trans
        (leaves_trimStart behind)).trans hLeaves,
      hPlaces⟩

/- A day alone has no places of a second. -/
theorem hasPlaces_of_readDay?
    {separator : Char}
    {text : Text}
    {t : Timestamp}
    (hPlain : separator ≠ '.' ∧ separator ≠ '\'')
    (hRead : readDay? separator text = some t) :
    HasPlaces text t.nanosecond := by
  simp only [readDay?, Option.bind_eq_bind,
    Option.bind_eq_some_iff] at hRead
  rcases hRead with ⟨⟨⟨y, m, d⟩, rest⟩, hDay, hMidnight⟩
  rw [Option.ite_none_right_eq_some] at hMidnight
  rcases hMidnight with ⟨rfl, hMidnight⟩
  simp only [midnight?, Option.ite_none_right_eq_some]
    at hMidnight
  rcases hMidnight with ⟨-, hEq⟩
  cases hEq
  exact ⟨[], leaves_dayParts hPlain hDay, rfl⟩

------------------------------------------------------------
-- Places of a Second
------------------------------------------------------------

/-
  The places are the digits behind a point, or there are none.
  The first nine of them are the nanoseconds.
-/
theorem exists_places_of_readFraction
    {tail : Text}
    {nanosecond : Nat}
    (hRead : readFraction tail = some (nanosecond, [])) :
    ∃ places,
      IsDigits places ∧
        (tail = '.' :: places ∨ (tail = [] ∧ places = [])) ∧
        nanosecond =
          digitsValue (places.take 9)
            * 10 ^ (9 - (places.take 9).length) := by
  unfold readFraction at hRead
  split at hRead
  · rename_i behind
    rcases Option.map_eq_some_iff.mp hRead
      with ⟨⟨found, after⟩, hDigits, hEq⟩
    rw [Prod.mk.injEq] at hEq
    rcases hEq with ⟨rfl, hAfter⟩
    rcases parts_of_readDigits hDigits
      with ⟨rfl, hFound, -, hMost, hStop⟩
    have hRest : IsDigits after := by
      rw [List.dropWhile_eq_nil_iff] at hAfter
      exact List.all_eq_true.mpr hAfter
    have hTake : (found ++ after).take 9 = found := by
      rcases hStop with hFull | hStop
      · rw [← hFull]
        exact List.take_left
      · have hNone : after = [] := by
          cases after with
          | nil => rfl
          | cons c after =>
              have hDigit := (isDigits_cons.mp hRest).1
              rw [StopsDigits, List.head?_cons, Option.any_some,
                hDigit] at hStop
              exact absurd hStop (by decide)
        rw [hNone, List.append_nil]
        exact List.take_of_length_le hMost
    refine
      ⟨found ++ after, isDigits_append.mpr ⟨hFound, hRest⟩,
        Or.inl rfl, ?_⟩
    rw [hTake]
    rfl
  · rw [Option.some.injEq, Prod.mk.injEq] at hRead
    rcases hRead with ⟨rfl, rfl⟩
    exact ⟨[], isDigits_nil, Or.inr ⟨rfl, rfl⟩, rfl⟩

theorem HasPlaces.quote_not_mem
    {t : Text}
    {nanosecond : Nat}
    (hPlaces : HasPlaces t nanosecond) :
    '\'' ∉ t := by
  rcases hPlaces with ⟨tail, ⟨front, rfl, hFront⟩, hRead⟩
  rcases exists_places_of_readFraction hRead
    with ⟨places, hDigits, hTail, -⟩
  rw [List.mem_append, not_or]
  refine ⟨fun hMem => (hFront _ hMem).2 rfl, ?_⟩
  rcases hTail with rfl | ⟨rfl, -⟩
  · rw [List.mem_cons, not_or]
    exact
      ⟨by decide,
        fun hMem => (isPlain_of_isDigits hDigits _ hMem).2 rfl⟩
  · exact List.not_mem_nil

/- Nothing but zeros denotes zero. -/
theorem digitsValue_eq_zero_iff
    {t : Text}
    (hDigits : IsDigits t) :
    digitsValue t = 0 ↔ ∀ c ∈ t, c = '0' := by
  have hNone := length_dropWhile_zero_le_iff hDigits 0
  rw [Nat.le_zero, List.length_eq_zero_iff,
    List.dropWhile_eq_nil_iff, Nat.pow_zero, Nat.lt_one_iff]
    at hNone
  rw [← hNone]
  simp only [beq_iff_eq]

/-
  The nanoseconds are whole milliseconds if the places behind
  the third are zero.
-/
theorem nanosecond_mod_eq_zero_iff
    {places : Text}
    (hDigits : IsDigits places) :
    digitsValue (places.take 9)
          * 10 ^ (9 - (places.take 9).length) % 10 ^ 6 = 0 ↔
      ∀ c ∈ (places.drop 3).take 6, c = '0' := by
  have hSix : (places.drop 3).take 6 = (places.take 9).drop 3 := by
    rw [List.drop_take]
  have hNine : (places.take 9).length ≤ 9 := List.length_take_le 9 _
  have hTake : IsDigits (places.take 9) := by
    rw [← List.take_append_drop 9 places, isDigits_append]
      at hDigits
    exact hDigits.1
  rw [hSix]
  generalize places.take 9 = first at hNine hTake
  rcases Nat.lt_or_ge 3 first.length with hMore | hFew
  · -- The first three digits are whole milliseconds.
    have hParts := List.take_append_drop 3 first
    have hMillis : (first.take 3).length = 3 := by
      rw [List.length_take]
      omega
    generalize first.take 3 = millis at hParts hMillis
    generalize first.drop 3 = rest at hParts ⊢
    subst hParts
    rw [List.length_append, hMillis] at hNine
    rw [isDigits_append] at hTake
    have hLess := digitsValue_lt hTake.2
    have hPow :
        10 ^ rest.length * 10 ^ (6 - rest.length) = 10 ^ 6 := by
      rw [← Nat.pow_add, Nat.add_sub_cancel' (by omega)]
    have hPlaces : 9 - (millis ++ rest).length = 6 - rest.length := by
      rw [List.length_append, hMillis]
      omega
    have hRest :
        digitsValue rest * 10 ^ (6 - rest.length) < 10 ^ 6 := by
      rw [← hPow]
      exact
        Nat.mul_lt_mul_of_pos_right hLess
          (Nat.pow_pos (by decide))
    rw [hPlaces, digitsValue_append, Nat.add_mul,
      Nat.mul_right_comm, hPow, Nat.mul_add_mod,
      Nat.mod_eq_of_lt hRest, Nat.mul_eq_zero,
      ← digitsValue_eq_zero_iff hTake.2]
    exact or_iff_left (Nat.pow_pos (by decide)).ne'
  · have hPlaces : 9 - first.length = (3 - first.length) + 6 := by
      omega
    rw [List.drop_eq_nil_of_le hFew, hPlaces, Nat.pow_add,
      ← Nat.mul_assoc, Nat.mul_mod_left]
    exact iff_of_true rfl fun _ hMem => absurd hMem List.not_mem_nil

end Timestamp

------------------------------------------------------------
-- What Stands Around a Moment
------------------------------------------------------------

namespace Text

/- Around the part there is no point, and no digit follows. -/
def Wraps
    (t part : Text) : Prop :=
  ∃ front back,
    t = front ++ part ++ back ∧ '.' ∉ front ∧ '.' ∉ back ∧
      Timestamp.StopsDigits back

theorem Wraps.trans
    {t s part : Text}
    (hOuter : Wraps t s)
    (hInner : Wraps s part) :
    Wraps t part := by
  rcases hOuter with ⟨front, back, rfl, hFront, hBack, hStop⟩
  rcases hInner with ⟨front', back', rfl, hFront', hBack', hStop'⟩
  refine ⟨front ++ front', back' ++ back, ?_, ?_, ?_, ?_⟩
  · simp only [List.append_assoc]
  · rw [List.mem_append, not_or]
    exact ⟨hFront, hFront'⟩
  · rw [List.mem_append, not_or]
    exact ⟨hBack', hBack⟩
  · cases back' with
    | nil => exact hStop
    | cons c back' => exact hStop'

theorem wraps_trim
    (t : Text) :
    Wraps t (trim t) := by
  rcases exists_blanks_trim t
    with ⟨b, b', hBlank, hBlank', hText⟩
  refine
    ⟨b, b', hText,
      fun hMem =>
        (Timestamp.isPlain_of_isBlank hBlank _ hMem).1 rfl,
      fun hMem =>
        (Timestamp.isPlain_of_isBlank hBlank' _ hMem).1 rfl, ?_⟩
  cases b' with
  | nil => rfl
  | cons c b' =>
      have hChar := (isBlank_cons.mp hBlank').1
      cases hDigit : c.isDigit with
      | false => exact hDigit
      | true =>
          have hOther :=
            isBlank_eq_false_of_isNameChar
              (isNameChar_of_isDigit hDigit)
          rw [hChar] at hOther
          exact absurd hOther (by decide)

theorem wraps_surround
    {a b : Char}
    (part : Text)
    (hFirst : a ≠ '.')
    (hLast : b ≠ '.' ∧ b.isDigit = false) :
    Wraps (a :: (part ++ [b])) part := by
  refine ⟨[a], [b], rfl, ?_, ?_, hLast.2⟩
  · rw [List.mem_singleton]
    exact hFirst.symm
  · rw [List.mem_singleton]
    exact hLast.1.symm

/- A word has no point. -/
theorem wraps_drop
    {word t : Text}
    (hLetters : IsLetters word)
    (hStart : startsWord word t = true) :
    Wraps t (t.drop word.length) := by
  rcases startsWord_iff.mp hStart with ⟨spelled, rest, rfl, hSame⟩
  have hSpelled := isLetters_of_sameWord hSame hLetters
  refine ⟨spelled, [], ?_, ?_, List.not_mem_nil, rfl⟩
  · rw [← length_eq_of_sameWord hSame, List.drop_left,
      List.append_nil]
  · intro hMem
    exact absurd (isAlpha_of_mem hSpelled hMem) (by decide)

/- The places of the part are those of the whole text. -/
theorem pointPlaces_of_wraps
    {t part : Text}
    {nanosecond : Nat}
    (hWraps : Wraps t part)
    (hPlaces : Timestamp.HasPlaces part nanosecond) :
    IsDigits (pointPlaces t) ∧
      nanosecond =
        digitsValue ((pointPlaces t).take 9)
          * 10 ^ (9 - ((pointPlaces t).take 9).length) := by
  rcases hPlaces with ⟨tail, ⟨front, rfl, hPlain⟩, hRead⟩
  rcases Timestamp.exists_places_of_readFraction hRead
    with ⟨places, hDigits, hTail, hValue⟩
  rcases hWraps with ⟨before, back, rfl, hBefore, hBack, hStop⟩
  have hFront : '.' ∉ front := fun hMem => (hPlain _ hMem).1 rfl
  have hSame : pointPlaces (before ++ (front ++ tail) ++ back) =
      places := by
    rcases hTail with rfl | ⟨rfl, rfl⟩
    · have hNone : '.' ∉ before ++ front := by
        rw [List.mem_append, not_or]
        exact ⟨hBefore, hFront⟩
      have hText :
          before ++ (front ++ '.' :: places) ++ back =
            (before ++ front) ++ '.' :: (places ++ back) := by
        simp only [List.append_assoc, List.cons_append]
      rw [hText, pointPlaces, cutAt?_append _ hNone]
      simp only
      rw [List.takeWhile_append_of_pos
          (fun c hMem => isDigit_of_mem hDigits hMem),
        Timestamp.takeWhile_of_stopsDigits hStop, List.append_nil]
    · have hNone : '.' ∉ before ++ (front ++ []) ++ back := by
        simp only [List.append_nil, List.mem_append, not_or]
        exact ⟨⟨hBefore, hFront⟩, hBack⟩
      rw [pointPlaces, cutAt?_eq_none hNone]
  rw [hSame]
  exact ⟨hDigits, hValue⟩

end Text

------------------------------------------------------------
-- Dates
------------------------------------------------------------

namespace Literal

/- The moment behind a keyword stands in a string. -/
theorem wraps_of_stringAfter?
    {keyword t value : Text}
    (hLetters : Text.IsLetters keyword)
    (hStart : Text.startsWord keyword t = true)
    (hValue : stringAfter? keyword t = some value)
    (hNone : '\'' ∉ Text.trim value) :
    Text.Wraps t (Text.trim value) := by
  have hQuote : '\'' ∉ value := by
    rcases Text.exists_blanks_trim value
      with ⟨b, b', hBlank, hBlank', hParts⟩
    rw [hParts, List.mem_append, List.mem_append, not_or, not_or]
    exact
      ⟨⟨fun hMem =>
          (Timestamp.isPlain_of_isBlank hBlank _ hMem).2 rfl,
        hNone⟩,
        fun hMem =>
          (Timestamp.isPlain_of_isBlank hBlank' _ hMem).2 rfl⟩
  have hQuoted := Text.wraps_trim (t.drop keyword.length)
  rw [Quoted.eq_of_unquote? hValue hQuote] at hQuoted
  exact
    (((Text.wraps_drop hLetters hStart).trans hQuoted).trans
      (Text.wraps_surround value (by decide) (by decide))).trans
      (Text.wraps_trim value)

/- The moment between brackets stands in them. -/
theorem wraps_of_bracketed?
    {t interior : Text}
    (hInterior : bracketed? t = some interior) :
    Text.Wraps t (Text.trim interior) := by
  rw [bracketed?, Option.ite_none_right_eq_some] at hInterior
  rcases hInterior with ⟨⟨hSize, hFirst, hLast⟩, hEq⟩
  cases hEq
  have hBrackets :=
    Text.wraps_surround (a := '[') (b := ']') (Text.inner t)
      (by decide) (by decide)
  rw [← Text.eq_surround hSize hFirst hLast] at hBrackets
  exact hBrackets.trans (Text.wraps_trim _)

/- Whatever its form, a date is a moment in some wrapping. -/
theorem exists_wraps_of_readDate?
    {t : Text}
    {d : Timestamp}
    (hRead : readDate? t = some d) :
    ∃ part,
      Text.Wraps t part ∧ Timestamp.HasPlaces part d.nanosecond := by
  rw [readDate?] at hRead
  split at hRead
  · rename_i interior hInterior
    refine
      ⟨Text.trim interior, wraps_of_bracketed? hInterior, ?_⟩
    rw [Option.or_eq_some_iff] at hRead
    rcases hRead with hMoment | ⟨-, hDay⟩
    · exact Timestamp.hasPlaces_of_readMoment? (by decide) hMoment
    · exact Timestamp.hasPlaces_of_readDay? (by decide) hDay
  · split_ifs at hRead with hTimestamp hDate
    · rw [Option.bind_eq_some_iff] at hRead
      rcases hRead with ⟨value, hValue, hMoment⟩
      have hPlaces :=
        Timestamp.hasPlaces_of_readMoment? (by decide) hMoment
      exact
        ⟨Text.trim value,
          wraps_of_stringAfter? (by decide) hTimestamp hValue
            hPlaces.quote_not_mem,
          hPlaces⟩
    · rw [Option.bind_eq_some_iff] at hRead
      rcases hRead with ⟨value, hValue, hDay⟩
      have hPlaces :=
        Timestamp.hasPlaces_of_readDay? (by decide) hDay
      exact
        ⟨Text.trim value,
          wraps_of_stringAfter? (by decide) hDate hValue
            hPlaces.quote_not_mem,
          hPlaces⟩

/-
  A date that was read is read back down to the millisecond.
  That is the date if its text has nothing but zeros from the
  fourth place of the second to the ninth.
-/
theorem ofText?_written_of_date
    {t : Text}
    {d : Timestamp}
    (hRead : ofText? t = some (.date d)) :
    ofText? (Literal.date d).written = some (.date d.toMillisecond) ∧
      (ofText? (Literal.date d).written = some (.date d) ↔
        ∀ c ∈ ((Text.pointPlaces (Text.trim t)).drop 3).take 6,
          c = '0') := by
  have hBack := ofText?_written_date (isRead_of_ofText? hRead)
  refine ⟨hBack, ?_⟩
  rcases exists_form_of_ofText? hRead with ⟨form, hForm, -⟩
  have hDate : readDate? (Text.trim t) = some d := by
    cases form with
    | date =>
        rcases Option.map_eq_some_iff.mp hForm with ⟨a, hDate, hEq⟩
        cases hEq
        exact hDate
    | _ =>
        rcases Option.map_eq_some_iff.mp hForm with ⟨a, -, hEq⟩
        cases hEq
  rcases exists_wraps_of_readDate? hDate with ⟨part, hWraps, hPlaces⟩
  rcases Text.pointPlaces_of_wraps hWraps hPlaces
    with ⟨hDigits, hValue⟩
  rw [hBack, Option.some.injEq, Literal.date.injEq,
    Timestamp.toMillisecond_eq_self_iff, hValue]
  exact Timestamp.nanosecond_mod_eq_zero_iff hDigits

theorem ofText?_written_of_date_leapSecond :
    ofText? "[+12345/06/30 23:59:60.1230000009]".toList =
        some (.date ⟨12345, 6, 30, 23, 59, 60, 123000000⟩) ∧
      ofText?
          (Literal.date ⟨12345, 6, 30, 23, 59, 60, 123000000⟩).written =
        some
          (.date
            (Timestamp.toMillisecond
              ⟨12345, 6, 30, 23, 59, 60, 123000000⟩)) ∧
      (ofText?
            (Literal.date
              ⟨12345, 6, 30, 23, 59, 60, 123000000⟩).written =
          some (.date ⟨12345, 6, 30, 23, 59, 60, 123000000⟩) ↔
        ∀ c ∈
          ((Text.pointPlaces
            (Text.trim
              "[+12345/06/30 23:59:60.1230000009]".toList)).drop
                3).take 6,
          c = '0') :=
  ⟨by decide +kernel, ofText?_written_of_date (by decide +kernel)⟩

/- Microseconds are not written. -/
theorem not_forall_ofText?_written_of_date :
    ¬ ∀ t d,
      ofText? t = some (.date d) →
        ofText? (Literal.date d).written = some (.date d) := by
  intro hAll
  have hRead :
      ofText? "TIMESTAMP '2012-01-01 14:30:59.123456'".toList =
        some (.date ⟨2012, 1, 1, 14, 30, 59, 123456000⟩) := by
    decide +kernel
  have hOther :
      ofText?
          (Literal.date ⟨2012, 1, 1, 14, 30, 59, 123456000⟩).written ≠
        some (.date ⟨2012, 1, 1, 14, 30, 59, 123456000⟩) := by
    decide +kernel
  exact hOther (hAll _ _ hRead)

end Literal

end SqlSelect
