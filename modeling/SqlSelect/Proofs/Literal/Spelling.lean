import SqlSelect.Literal.Reading
import SqlSelect.Proofs.Number.Digits
import SqlSelect.Proofs.Recall.Literals
import SqlSelect.Proofs.Text.Folding

/-
  Literals in other letters. There are letters in strings and
  keywords only, so that a text is a literal in any letter
  case or in none.

  Main statements:
    * `Timestamp.Reader.IgnoresCase`
    * `Timestamp.readMoment?_foldCase`
    * `Quoted.unquote?_foldCase`
    * `Literal.isSome_ofText?_of_sameWord`
-/

namespace SqlSelect

------------------------------------------------------------
-- Digits
------------------------------------------------------------

theorem isAlpha_eq_false_of_isDigit
    {c : Char}
    (hDigit : c.isDigit = true) :
    c.isAlpha = false := by
  have hNot : (!c.isAlpha) = true :=
    of_isDigit (p := fun c => !c.isAlpha) hDigit (by decide +kernel)
  simpa using hNot

theorem foldCase_of_isDigits
    {t : Text}
    (hDigits : IsDigits t) :
    Text.foldCase t = t :=
  Text.foldCase_of_plain fun _ hMem =>
    isAlpha_eq_false_of_isDigit (isDigit_of_mem hDigits hMem)

theorem isAlpha_eq_false_of_isSign
    {sign : Text}
    {negative : Bool}
    (hSign : IsSign sign negative)
    {c : Char}
    (hMem : c ∈ sign) :
    c.isAlpha = false := by
  cases hSign with
  | plus =>
      rw [List.mem_singleton.mp hMem]
      rfl
  | minus =>
      rw [List.mem_singleton.mp hMem]
      rfl
  | none => cases hMem

/-
  A reader of texts without letters does not tell letter case:
  a text with letters has them in any case.
-/
theorem eq_foldCase_of_plain
    {α : Type}
    {f : Text → Option α}
    (hPlain : ∀ t a, f t = some a → ∀ c ∈ t, c.isAlpha = false)
    (t : Text) :
    f (Text.foldCase t) = f t := by
  by_cases hLetters : ∀ c ∈ t, c.isAlpha = false
  · rw [Text.foldCase_of_plain hLetters]
  · have hSmall : ¬ ∀ c ∈ Text.foldCase t, c.isAlpha = false := by
      intro hNone
      apply hLetters
      intro c hMem
      rw [← isAlpha_toLower]
      exact hNone _ (List.mem_map_of_mem hMem)
    have hNone : f t = none :=
      Option.eq_none_iff_forall_ne_some.mpr fun a hSome =>
        hLetters (hPlain t a hSome)
    have hNone' : f (Text.foldCase t) = none :=
      Option.eq_none_iff_forall_ne_some.mpr fun a hSome =>
        hSmall (hPlain _ a hSome)
    rw [hNone, hNone']

theorem integerOfText?_foldCase
    (t : Text) :
    integerOfText? (Text.foldCase t) = integerOfText? t := by
  apply eq_foldCase_of_plain
  intro t n hRead c hMem
  rcases integerOfText?_eq_some_iff.mp hRead
    with ⟨sign, negative, digits, rfl, hSign, hDigits, -⟩
  rcases List.mem_append.mp hMem with hIn | hIn
  · exact isAlpha_eq_false_of_isSign hSign hIn
  · exact isAlpha_eq_false_of_isDigit (isDigit_of_mem hDigits hIn)

theorem Numeral.ofText?_foldCase
    (t : Text) :
    ofText? (Text.foldCase t) = ofText? t := by
  apply eq_foldCase_of_plain
  intro t n hRead c hMem
  rcases ofText?_eq_some_iff.mp hRead with ⟨hSpelled, sign, hSign, rfl⟩
  have hPoint : ('.').isAlpha = false := by decide
  simp only [body, List.mem_append, List.mem_cons] at hMem
  rcases hMem with hIn | hIn | rfl | hIn
  · exact isAlpha_eq_false_of_isSign hSign hIn
  · exact isAlpha_eq_false_of_isDigit (isDigit_of_mem hSpelled.whole hIn)
  · exact hPoint
  · exact
      isAlpha_eq_false_of_isDigit (isDigit_of_mem hSpelled.fraction hIn)

------------------------------------------------------------
-- Days and Times
------------------------------------------------------------

namespace Timestamp

variable {α β : Type}

/- Without a sign a year has at most four digits. -/
theorem readYear_of_unsigned
    {t start : Text}
    {c : Char}
    (hUnsigned : ¬ (c = '-' ∨ c = '+'))
    (hStart : Text.trimStart t = c :: start) :
    readYear t =
      (readDigits 4 (c :: start)).map fun (found, rest) =>
        (Int.ofNat (digitsValue found), rest) := by
  rw [readYear, hStart]
  split
  · rename_i hText
    cases hText
    exact absurd (Or.inl rfl) hUnsigned
  · rename_i hText
    cases hText
    exact absurd (Or.inr rfl) hUnsigned
  · rfl

/- Without a point there are no places. -/
theorem readFraction_of_ne
    {c : Char}
    (t : Text)
    (hOther : c ≠ '.') :
    readFraction (c :: t) = some (0, c :: t) := by
  rw [readFraction]
  rintro rest hText
  cases hText
  exact hOther rfl

/-
  The reader reads the same in small letters, and leaves what
  it leaves in small letters.
-/
def Reader.IgnoresCase
    (r : Reader α) : Prop :=
  ∀ t,
    r (Text.foldCase t) =
      (r t).map fun (a, rest) => (a, Text.foldCase rest)

namespace Reader.IgnoresCase

theorem pure
    (a : α) :
    IgnoresCase fun t => some (a, t) :=
  fun _ => rfl

/- Two readers one after the other, the second as it has to be. -/
theorem bind
    {r : Reader α}
    {f : α → Reader β}
    (hFirst : IgnoresCase r)
    (hRest : ∀ a, IgnoresCase (f a)) :
    IgnoresCase fun t => (r t).bind fun (a, rest) => f a rest := by
  intro t
  simp only [hFirst t]
  cases r t with
  | none => rfl
  | some read => exact hRest read.1 read.2

theorem map
    {r : Reader α}
    (f : α → β)
    (hRead : IgnoresCase r) :
    IgnoresCase fun t => (r t).map fun (a, rest) => (f a, rest) := by
  intro t
  simp only [hRead t]
  cases r t with
  | none => rfl
  | some read => rfl

theorem trimStart
    {r : Reader α}
    (hRead : IgnoresCase r) :
    IgnoresCase fun t => r (Text.trimStart t) := by
  intro t
  simp only [← Text.foldCase_trimStart, hRead (Text.trimStart t)]

theorem readDigits
    (most : Nat) :
    IgnoresCase (readDigits most) := by
  intro t
  have hDigits : IsDigits ((t.take most).takeWhile Char.isDigit) :=
    List.all_takeWhile
  have hFound := foldCase_of_isDigits hDigits
  rw [Text.foldCase_takeWhile isDigit_toLower, Text.foldCase_take]
    at hFound
  simp only [Timestamp.readDigits, hFound, ← Text.foldCase_drop]
  split_ifs <;> rfl

theorem readNumber :
    IgnoresCase readNumber :=
  ((readDigits 2).map digitsValue).trimStart

theorem readMark
    {c : Char}
    (hPlain : c.isAlpha = false) :
    IgnoresCase (readMark c) := by
  intro t
  simp only [Timestamp.readMark, Text.head?_foldCase hPlain]
  split_ifs
  · simp [Text.foldCase, List.map_tail]
  · rfl

theorem readYear :
    IgnoresCase readYear := by
  intro t
  cases hStart : Text.trimStart t with
  | nil =>
      have hLower := Text.foldCase_trimStart t
      rw [hStart, Text.foldCase_nil] at hLower
      rw [Timestamp.readYear, Timestamp.readYear, hStart, ← hLower]
      rfl
  | cons c start =>
      have hLower := Text.foldCase_trimStart t
      rw [hStart, Text.foldCase_cons] at hLower
      by_cases hSigned : c = '-' ∨ c = '+'
      · rw [Timestamp.readYear, Timestamp.readYear, hStart, ← hLower]
        rcases hSigned with rfl | rfl
        · have hMinus : Char.toLower '-' = '-' := by decide
          simp only [hMinus, Text.length_foldCase]
          exact
            (readDigits start.length).map
              (fun found => -Int.ofNat (digitsValue found)) start
        · have hPlus : Char.toLower '+' = '+' := by decide
          simp only [hPlus, Text.length_foldCase]
          exact
            (readDigits start.length).map
              (fun found => Int.ofNat (digitsValue found)) start
      · have hSigned' : ¬ (c.toLower = '-' ∨ c.toLower = '+') := by
          rwa [toLower_eq_iff (by decide), toLower_eq_iff (by decide)]
        rw [readYear_of_unsigned hSigned hStart,
          readYear_of_unsigned hSigned' hLower.symm, ← Text.foldCase_cons]
        exact
          (readDigits 4).map (fun found => Int.ofNat (digitsValue found))
            (c :: start)

theorem readFraction :
    IgnoresCase readFraction := by
  intro t
  cases t with
  | nil => rfl
  | cons c rest =>
      by_cases hPoint : c = '.'
      · subst hPoint
        have hRead :
            Timestamp.readFraction (Text.foldCase ('.' :: rest)) =
              (Timestamp.readDigits 9 (Text.foldCase rest)).map
                fun (found, after) =>
                  ( digitsValue found * Nat.pow 10 (9 - found.length)
                  , after.dropWhile Char.isDigit ) := rfl
        rw [hRead, readDigits 9 rest, Timestamp.readFraction]
        cases Timestamp.readDigits 9 rest with
        | none => rfl
        | some read =>
            simp [Text.foldCase_dropWhile isDigit_toLower]
      · have hPoint' : c.toLower ≠ '.' := by
          rwa [ne_eq, toLower_eq_iff (by decide)]
        rw [readFraction_of_ne rest hPoint, Text.foldCase_cons,
          readFraction_of_ne _ hPoint']
        rfl

theorem dayParts
    {separator : Char}
    (hPlain : separator.isAlpha = false) :
    IgnoresCase (dayParts separator) :=
  readYear.bind fun y =>
    (readMark hPlain).bind fun _ =>
      readNumber.bind fun m =>
        (readMark hPlain).bind fun _ =>
          readNumber.bind fun d => pure (y, m, d)

theorem timeParts :
    IgnoresCase timeParts :=
  readNumber.bind fun h =>
    (readMark (by decide)).bind fun _ =>
      readNumber.bind fun m =>
        (readMark (by decide)).bind fun _ =>
          readNumber.bind fun s =>
            readFraction.bind fun places => pure (h, m, s, places)

end Reader.IgnoresCase

end Timestamp

namespace Timestamp

theorem readDay?_foldCase
    {separator : Char}
    (hPlain : separator.isAlpha = false)
    (t : Text) :
    readDay? separator (Text.foldCase t) = readDay? separator t := by
  simp only [readDay?, Reader.IgnoresCase.dayParts hPlain t]
  cases dayParts separator t with
  | none => rfl
  | some read => simp [Text.foldCase]

theorem readMoment?_foldCase
    {separator : Char}
    (hPlain : separator.isAlpha = false)
    (t : Text) :
    readMoment? separator (Text.foldCase t) =
      readMoment? separator t := by
  simp only [readMoment?, Reader.IgnoresCase.dayParts hPlain t]
  cases dayParts separator t with
  | none => rfl
  | some day =>
      simp only [Option.map_some, Option.bind_eq_bind, Option.bind_some,
        ← Text.foldCase_trimStart,
        Reader.IgnoresCase.timeParts (Text.trimStart day.2)]
      cases timeParts (Text.trimStart day.2) with
      | none => rfl
      | some time => simp [Text.foldCase]

end Timestamp

------------------------------------------------------------
-- Strings
------------------------------------------------------------

namespace Quoted

theorem unescape?_foldCase
    (t : Text) :
    unescape? (Text.foldCase t) = (unescape? t).map Text.foldCase := by
  have hQuote
      (c : Char) :
      c.toLower = '\'' ↔ c = '\'' :=
    toLower_eq_iff (by decide)
  fun_induction unescape? t with
  | case1 => rfl
  | case2 => rfl
  | case3 c hOther => simp [unescape?, hQuote, hOther]
  | case4 rest ih =>
      simp [unescape?, ih, Option.map_map, Function.comp_def]
  | case5 d rest hSingle => simp [unescape?, hQuote, hSingle]
  | case6 c d rest hOther ih =>
      rw [Text.foldCase_cons] at ih
      simp [unescape?, hQuote, hOther, ih, Option.map_map,
        Function.comp_def]

theorem isEnclosed_foldCase
    {t : Text} :
    IsEnclosed (Text.foldCase t) ↔ IsEnclosed t := by
  rw [IsEnclosed, IsEnclosed, Text.length_foldCase,
    Text.head?_foldCase (by decide), Text.getLast?_foldCase (by decide)]

/- The value of a string literal has the letters of the literal. -/
theorem unquote?_foldCase
    (t : Text) :
    unquote? (Text.foldCase t) = (unquote? t).map Text.foldCase := by
  simp only [unquote?, isEnclosed_foldCase, ← Text.foldCase_inner,
    unescape?_foldCase]
  split_ifs <;> rfl

end Quoted

------------------------------------------------------------
-- Literals
------------------------------------------------------------

namespace Literal

theorem bracketed?_foldCase
    (t : Text) :
    bracketed? (Text.foldCase t) = (bracketed? t).map Text.foldCase := by
  simp only [bracketed?, Text.length_foldCase,
    Text.head?_foldCase (show ('[').isAlpha = false by decide),
    Text.getLast?_foldCase (show (']').isAlpha = false by decide),
    ← Text.foldCase_inner]
  split_ifs <;> rfl

theorem stringAfter?_foldCase
    (keyword t : Text) :
    stringAfter? keyword (Text.foldCase t) =
      (stringAfter? keyword t).map Text.foldCase := by
  simp only [stringAfter?, ← Text.foldCase_drop, ← Text.foldCase_trim,
    Quoted.unquote?_foldCase]

theorem readDate?_foldCase
    (t : Text) :
    readDate? (Text.foldCase t) = readDate? t := by
  have hSlash : ('/').isAlpha = false := by decide
  have hDash : ('-').isAlpha = false := by decide
  simp only [readDate?, bracketed?_foldCase, Text.startsWord_foldCase,
    stringAfter?_foldCase]
  cases bracketed? t with
  | some interior =>
      simp only [Option.map_some, ← Text.foldCase_trim,
        Timestamp.readMoment?_foldCase hSlash,
        Timestamp.readDay?_foldCase hSlash]
  | none =>
      simp only [Option.map_none, Option.bind_map, Function.comp_def,
        ← Text.foldCase_trim, Timestamp.readMoment?_foldCase hDash,
        Timestamp.readDay?_foldCase hDash]

theorem readBoolean?_foldCase
    (t : Text) :
    readBoolean? (Text.foldCase t) = readBoolean? t := by
  simp only [readBoolean?, Text.SameWord, Text.foldCase_foldCase]

theorem pointForm_foldCase
    (t : Text) :
    pointForm (Text.foldCase t) = pointForm t := by
  have hFilter :
      (Text.foldCase t).filter Char.isDigit = t.filter Char.isDigit := by
    have hDigits : IsDigits (t.filter Char.isDigit) := by
      simp [IsDigits, List.all_filter]
    have hSame : Char.isDigit ∘ Char.toLower = Char.isDigit :=
      funext isDigit_toLower
    rw [← foldCase_of_isDigits hDigits, Text.foldCase, Text.foldCase,
      List.filter_map, hSame]
  rw [pointForm, pointForm, significantDigits, significantDigits,
    hFilter]

/- A text is a literal of one form in any letter case. -/
theorem isSome_ofForm?_foldCase
    (form : Form)
    (t : Text) :
    (ofForm? form (Text.foldCase t)).isSome =
      (ofForm? form t).isSome := by
  rw [ofForm?, ofForm?, ← Text.foldCase_trim]
  cases form with
  | string => simp [ofTrimmed?, Quoted.unquote?_foldCase]
  | integer => simp [ofTrimmed?, integerOfText?_foldCase]
  | number => simp [ofTrimmed?, Numeral.ofText?_foldCase]
  | bigNumber => simp [ofTrimmed?, Numeral.ofText?_foldCase]
  | boolean => simp [ofTrimmed?, readBoolean?_foldCase]
  | date => simp [ofTrimmed?, readDate?_foldCase]

/- A text is a literal in any letter case or in none. -/
theorem isSome_ofText?_of_sameWord
    {s t : Text}
    (hSame : Text.SameWord s t) :
    (ofText? s).isSome = (ofText? t).isSome := by
  have hFold
      (u : Text) :
      (ofText? (Text.foldCase u)).isSome = (ofText? u).isSome := by
    simp only [ofText?_eq, Option.isSome_or, pointForm_foldCase,
      isSome_ofForm?_foldCase]
  rw [← hFold s, hSame, hFold t]

end Literal

end SqlSelect
