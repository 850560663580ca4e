import SqlSelect.Proofs.Number.Digits
import SqlSelect.Proofs.Text.Trimming
import SqlSelect.Timestamp.Reading

/-
  Days and times in writing. A moment in its text with
  slashes is read back down to the millisecond.

  Main statements:
    * `Timestamp.readDigits_append`
    * `Timestamp.readYear_yearText`
    * `Timestamp.toMillisecond`
    * `Timestamp.readMoment?_slashed`
-/

namespace SqlSelect

namespace Timestamp

------------------------------------------------------------
-- Digits
------------------------------------------------------------

/- No digit comes next. -/
def StopsDigits
    (t : Text) : Prop :=
  t.head?.any Char.isDigit = false

theorem takeWhile_of_stopsDigits
    {t : Text}
    (hStop : StopsDigits t) :
    t.takeWhile Char.isDigit = [] := by
  cases t with
  | nil => rfl
  | cons c t =>
      have hOther : c.isDigit = false := by
        simpa [StopsDigits] using hStop
      simp [hOther]

/-
  Digits are read to the end of them, or as many as may be
  read at most.
-/
theorem readDigits_append
    {most : Nat}
    {digits : Text}
    (rest : Text)
    (hDigits : IsDigits digits)
    (hSome : digits ≠ [])
    (hMost : digits.length ≤ most)
    (hStop : digits.length = most ∨ StopsDigits rest) :
    readDigits most (digits ++ rest) = some (digits, rest) := by
  have hBehind :
      (rest.take (most - digits.length)).takeWhile Char.isDigit =
        [] := by
    rcases hStop with hFull | hStop
    · rw [hFull, Nat.sub_self]
      rfl
    · cases hTake : most - digits.length with
      | zero => rfl
      | succ more =>
          apply takeWhile_of_stopsDigits
          cases rest with
          | nil => rfl
          | cons c rest => exact hStop
  have hFound :
      ((digits ++ rest).take most).takeWhile Char.isDigit =
        digits := by
    rw [List.take_append, List.take_of_length_le hMost,
      List.takeWhile_append_of_pos
        (fun c hMem => isDigit_of_mem hDigits hMem),
      hBehind, List.append_nil]
  rw [readDigits]
  simp only [hFound, if_neg hSome, List.drop_left]

/- A text of digits does not begin with a blank. -/
theorem trimStart_digits
    {digits : Text}
    (rest : Text)
    (hDigits : IsDigits digits)
    (hSome : digits ≠ []) :
    Text.trimStart (digits ++ rest) = digits ++ rest := by
  cases digits with
  | nil => exact absurd rfl hSome
  | cons c digits =>
      have hDigit := (isDigits_cons.mp hDigits).1
      exact
        Text.trimStart_of_head
          (isBlank_eq_false_of_isNameChar
            (isNameChar_of_isDigit hDigit))

/- A number below one hundred takes two digits. -/
theorem readNumber_paddedDigits
    {n : Nat}
    (rest : Text)
    (hLess : n < 100) :
    readNumber (paddedDigits 2 n ++ rest) = some (n, rest) := by
  have hDigits := isDigits_paddedDigits 2 n
  have hSome := paddedDigits_ne_nil 2 n
  have hLength : (paddedDigits 2 n).length = 2 :=
    length_paddedDigits_of_lt (by decide) hLess
  rw [readNumber, trimStart_digits rest hDigits hSome,
    readDigits_append rest hDigits hSome (Nat.le_of_eq hLength)
      (Or.inl hLength)]
  simp only [Option.map_some, digitsValue_paddedDigits]

theorem readMark_cons
    (c : Char)
    (rest : Text) :
    readMark c (c :: rest) = some ((), rest) :=
  if_pos rfl

------------------------------------------------------------
-- Days
------------------------------------------------------------

/- A sign is followed by as many digits as there are. -/
theorem readYear_sign
    {year : Int}
    {rest : Text}
    (sign : Char)
    (hSign :
      (sign = '-' ∧ year < 0) ∨ (sign = '+' ∧ 0 ≤ year))
    (hStop : StopsDigits rest) :
    readYear (sign :: (paddedDigits 4 year.natAbs ++ rest)) =
      some (year, rest) := by
  have hRead :=
    readDigits_append rest
      (isDigits_paddedDigits 4 year.natAbs)
      (paddedDigits_ne_nil 4 year.natAbs)
      (Nat.le_add_right _ rest.length) (Or.inr hStop)
  rw [← List.length_append] at hRead
  rcases hSign with ⟨rfl, hNegative⟩ | ⟨rfl, hPositive⟩
  · have hTrim :
        Text.trimStart
            ('-' :: (paddedDigits 4 year.natAbs ++ rest)) =
          '-' :: (paddedDigits 4 year.natAbs ++ rest) :=
      Text.trimStart_of_head (by decide)
    have hYear : -Int.ofNat year.natAbs = year := by
      rw [Int.ofNat_eq_natCast]
      omega
    rw [readYear]
    simp only [hTrim, hRead, Option.map_some,
      digitsValue_paddedDigits, hYear]
  · have hTrim :
        Text.trimStart
            ('+' :: (paddedDigits 4 year.natAbs ++ rest)) =
          '+' :: (paddedDigits 4 year.natAbs ++ rest) :=
      Text.trimStart_of_head (by decide)
    have hYear : Int.ofNat year.natAbs = year := by
      rw [Int.ofNat_eq_natCast]
      omega
    rw [readYear]
    simp only [hTrim, hRead, Option.map_some,
      digitsValue_paddedDigits, hYear]

theorem readYear_digits
    {year : Int}
    (rest : Text)
    (hFirst : 0 ≤ year)
    (hLast : year ≤ 9999) :
    readYear (paddedDigits 4 year.natAbs ++ rest) =
      some (year, rest) := by
  have hDigits := isDigits_paddedDigits 4 year.natAbs
  have hSome := paddedDigits_ne_nil 4 year.natAbs
  have hLength : (paddedDigits 4 year.natAbs).length = 4 :=
    length_paddedDigits_of_lt (by decide) (by omega)
  have hRead :=
    readDigits_append rest hDigits hSome
      (Nat.le_of_eq hLength) (Or.inl hLength)
  have hTrim := trimStart_digits rest hDigits hSome
  have hYear : Int.ofNat year.natAbs = year := by
    rw [Int.ofNat_eq_natCast]
    omega
  have hStart := startsUnsigned_append rest hDigits hSome
  rw [readYear, hTrim]
  split
  · rename_i hText
    rw [hText] at hStart
    exact absurd hStart (by simp [StartsUnsigned])
  · rename_i hText
    rw [hText] at hStart
    exact absurd hStart (by simp [StartsUnsigned])
  · rw [hRead]
    simp only [Option.map_some, digitsValue_paddedDigits, hYear]

theorem readYear_yearText
    (year : Int)
    {rest : Text}
    (hStop : StopsDigits rest) :
    readYear (yearText year ++ rest) = some (year, rest) := by
  rw [yearText]
  by_cases hPlain : 0 ≤ year ∧ year ≤ 9999
  · rw [if_pos hPlain]
    exact readYear_digits rest hPlain.1 hPlain.2
  · rw [if_neg hPlain, List.cons_append]
    apply readYear_sign _ _ hStop
    by_cases hNegative : year < 0
    · exact Or.inl ⟨if_pos hNegative, hNegative⟩
    · exact Or.inr ⟨if_neg hNegative, Int.not_lt.mp hNegative⟩

theorem daysInMonth_le
    (year : Int)
    (month : Nat) :
    daysInMonth year month ≤ 31 := by
  unfold daysInMonth
  split <;> first | omega | (split <;> omega)

theorem month_lt_of_exists
    {t : Timestamp}
    (hExists : t.Exists) :
    t.month < 100 := by
  apply Nat.lt_of_not_le
  intro hLarge
  have hNone : daysInMonth t.year t.month = 0 := by
    unfold daysInMonth
    split <;> first | rfl | omega
  have hDay := hExists.2.1
  omega

theorem dayParts_dayText
    {t : Timestamp}
    (hExists : t.Exists)
    (rest : Text) :
    dayParts '/' (dayText '/' t ++ rest) =
      some ((t.year, t.month, t.day), rest) := by
  have hMonth := month_lt_of_exists hExists
  have hDay : t.day < 100 := by
    have hMost := daysInMonth_le t.year t.month
    have hLast := hExists.2.1.2
    omega
  have hYear (rest : Text) :
      readYear (yearText t.year ++ '/' :: rest) =
        some (t.year, '/' :: rest) :=
    readYear_yearText t.year rfl
  simp only [dayParts, dayText, List.append_assoc,
    List.cons_append, hYear, Option.bind_eq_bind,
    Option.bind_some, readMark_cons,
    readNumber_paddedDigits _ hMonth,
    readNumber_paddedDigits _ hDay]
  rfl

------------------------------------------------------------
-- Times
------------------------------------------------------------

/- The moment without what is less than a millisecond. -/
def toMillisecond
    (t : Timestamp) : Timestamp :=
  { t with nanosecond := t.nanosecond / 1000000 * 1000000 }

theorem readFraction_milliseconds
    {n : Nat}
    (hLess : n < 1000) :
    readFraction ('.' :: paddedDigits 3 n) =
      some (n * 1000000, []) := by
  have hDigits := isDigits_paddedDigits 3 n
  have hLength : (paddedDigits 3 n).length = 3 :=
    length_paddedDigits_of_lt (by decide) hLess
  have hRead :=
    readDigits_append [] hDigits (paddedDigits_ne_nil 3 n)
      (by omega : _ ≤ 9) (Or.inr rfl)
  rw [List.append_nil] at hRead
  simp only [readFraction, hRead, Option.map_some,
    digitsValue_paddedDigits, hLength, List.dropWhile_nil]

theorem timeParts_timeText
    {t : Timestamp}
    (hExists : t.Exists) :
    timeParts
        (timeText t ++ '.' :: paddedDigits 3 (t.nanosecond / 1000000)) =
      some
        ((t.hour, t.minute, t.second,
          t.nanosecond / 1000000 * 1000000), []) := by
  have hHour : t.hour < 100 := by
    have h := hExists.2.2.1
    omega
  have hMinute : t.minute < 100 := by
    have h := hExists.2.2.2.1
    omega
  have hSecond : t.second < 100 := by
    have h := hExists.2.2.2.2.1
    omega
  have hPlaces : t.nanosecond / 1000000 < 1000 := by
    have h := hExists.2.2.2.2.2
    omega
  simp only [timeParts, timeText, List.append_assoc,
    List.cons_append, readNumber_paddedDigits _ hHour,
    Option.bind_eq_bind, Option.bind_some, readMark_cons,
    readNumber_paddedDigits _ hMinute,
    readNumber_paddedDigits _ hSecond,
    readFraction_milliseconds hPlaces]
  rfl

theorem exists_toMillisecond
    {t : Timestamp}
    (hExists : t.Exists) :
    t.toMillisecond.Exists := by
  rcases hExists with ⟨hYear, hDay, hHour, hMinute, hSecond, hNano⟩
  refine ⟨hYear, hDay, hHour, hMinute, hSecond, ?_⟩
  exact Nat.lt_of_le_of_lt (Nat.div_mul_le_self _ _) hNano

/- A moment in writing is read down to the millisecond. -/
theorem readMoment?_slashed
    {t : Timestamp}
    (hExists : t.Exists) :
    readMoment? '/' t.slashed = some t.toMillisecond := by
  have hTime (rest : Text) :
      Text.trimStart (' ' :: (timeText t ++ rest)) =
        timeText t ++ rest := by
    have hBlank : Text.IsBlank [' '] := by decide
    have hTrim :=
      Text.trimStart_append (timeText t ++ rest) hBlank
    rw [List.singleton_append] at hTrim
    rw [hTrim, timeText, List.append_assoc, List.append_assoc]
    exact
      trimStart_digits _ (isDigits_paddedDigits 2 t.hour)
        (paddedDigits_ne_nil 2 t.hour)
  simp only [readMoment?, slashed, List.append_assoc,
    List.cons_append, dayParts_dayText hExists, hTime,
    timeParts_timeText hExists, Option.bind_eq_bind,
    Option.bind_some]
  exact if_pos ⟨trivial, exists_toMillisecond hExists⟩

theorem toMillisecond_eq_self_iff
    {t : Timestamp} :
    t.toMillisecond = t ↔ t.nanosecond % 1000000 = 0 := by
  have hParts := Nat.div_add_mod t.nanosecond 1000000
  constructor
  · intro hSelf
    have hNano :
        t.nanosecond / 1000000 * 1000000 = t.nanosecond :=
      congrArg nanosecond hSelf
    omega
  · intro hWhole
    have hNano :
        t.nanosecond / 1000000 * 1000000 = t.nanosecond := by
      omega
    rw [toMillisecond, hNano]

------------------------------------------------------------
-- What Is Read Exists
------------------------------------------------------------

theorem exists_of_readMoment?
    {separator : Char}
    {text : Text}
    {t : Timestamp}
    (hRead : readMoment? separator text = some t) :
    t.Exists := by
  simp only [readMoment?, Option.bind_eq_bind,
    Option.bind_eq_some_iff] at hRead
  rcases hRead with ⟨⟨day, behind⟩, -, ⟨time, rest⟩, -, hMoment⟩
  rw [Option.ite_none_right_eq_some] at hMoment
  rcases hMoment with ⟨⟨-, hExists⟩, hEq⟩
  cases hEq
  exact hExists

theorem exists_of_readDay?
    {separator : Char}
    {text : Text}
    {t : Timestamp}
    (hRead : readDay? separator text = some t) :
    t.Exists := by
  simp only [readDay?, Option.bind_eq_bind,
    Option.bind_eq_some_iff] at hRead
  rcases hRead with ⟨⟨day, rest⟩, -, hDay⟩
  rw [Option.ite_none_right_eq_some] at hDay
  have hMidnight := hDay.2
  simp only [midnight?, Option.ite_none_right_eq_some]
    at hMidnight
  rcases hMidnight with ⟨hExists, hEq⟩
  cases hEq
  exact hExists

------------------------------------------------------------
-- The Characters of a Moment
------------------------------------------------------------

/- The character can stand in a moment with slashes. -/
def isMomentChar
    (c : Char) : Bool :=
  c.isDigit || "+-/ :.".toList.contains c

theorem all_isMomentChar_paddedDigits
    (width n : Nat) :
    (paddedDigits width n).all isMomentChar = true := by
  rw [List.all_eq_true]
  intro c hMem
  have hDigit := isDigit_of_mem (isDigits_paddedDigits width n) hMem
  rw [isMomentChar, hDigit, Bool.true_or]

theorem all_isMomentChar_yearText
    (year : Int) :
    (yearText year).all isMomentChar = true := by
  have hDigits := all_isMomentChar_paddedDigits 4 year.natAbs
  rw [yearText]
  split
  · exact hDigits
  · rw [List.all_cons, hDigits, Bool.and_true]
    split <;> decide

theorem all_isMomentChar_slashed
    (t : Timestamp) :
    t.slashed.all isMomentChar = true := by
  have hSpace : isMomentChar ' ' = true := by decide
  have hSlash : isMomentChar '/' = true := by decide
  have hColon : isMomentChar ':' = true := by decide
  have hPoint : isMomentChar '.' = true := by decide
  simp only [slashed, dayText, timeText, List.all_append,
    List.all_cons, all_isMomentChar_yearText,
    all_isMomentChar_paddedDigits, hSpace, hSlash, hColon,
    hPoint, Bool.and_self]

/- There is a sign or a digit in front, and a digit behind. -/
theorem isTrimmed_slashed
    (t : Timestamp) :
    Text.IsTrimmed t.slashed := by
  have hBlank {c : Char} (hDigit : c.isDigit = true) :
      isBlank c = false :=
    isBlank_eq_false_of_isNameChar (isNameChar_of_isDigit hDigit)
  constructor
  · have hHead :
        (yearText t.year).head?.all (fun c => !isBlank c) = true ∧
          yearText t.year ≠ [] := by
      rw [yearText]
      have hSome := paddedDigits_ne_nil 4 t.year.natAbs
      have hDigits := isDigits_paddedDigits 4 t.year.natAbs
      split
      · refine ⟨?_, hSome⟩
        cases hText : paddedDigits 4 t.year.natAbs with
        | nil => rfl
        | cons c rest =>
            rw [hText] at hDigits
            simp [hBlank (isDigits_cons.mp hDigits).1]
      · refine ⟨?_, List.cons_ne_nil _ _⟩
        rw [List.head?_cons]
        split <;> decide
    cases hText : yearText t.year with
    | nil => exact absurd hText hHead.2
    | cons c rest =>
        rw [hText] at hHead
        simpa [slashed, dayText, hText] using hHead.1
  · have hSome := paddedDigits_ne_nil 3 (t.nanosecond / 1000000)
    have hDigits := isDigits_paddedDigits 3 (t.nanosecond / 1000000)
    have hLast :=
      hBlank (isDigit_of_mem hDigits (List.getLast_mem hSome))
    rw [slashed, List.getLast?_append,
      List.getLast?_cons_of_ne_nil hSome,
      List.getLast?_eq_some_getLast hSome, Option.some_or,
      Option.all_some, hLast]
    rfl

end Timestamp

end SqlSelect
