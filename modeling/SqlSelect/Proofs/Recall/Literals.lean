import SqlSelect.Literal.Reading
import SqlSelect.Proofs.Number.Decimal
import SqlSelect.Proofs.Number.Shortest
import SqlSelect.Proofs.Recall.Moments
import SqlSelect.Proofs.Text.Case
import SqlSelect.Proofs.Text.Quoting

/-
  Literals in writing. A literal that was read is read back
  from its text, unless the text of a number has more than
  fifteen digits, a number at full precision has no places,
  or a date has a part of a millisecond.

  Main statements:
    * `Literal.IsRead`
    * `Literal.isRead_of_ofText?`
    * `Literal.Recalled`
    * `Literal.ofText?_written`
    * `Literal.recalled_of_ofText?_written`
-/

namespace SqlSelect

namespace Literal

------------------------------------------------------------
-- Significant Digits
------------------------------------------------------------

theorem filter_isDigit_eq_nil
    {t : Text}
    (hNone : t.all (fun c => !c.isDigit) = true) :
    t.filter Char.isDigit = [] := by
  rw [List.filter_eq_nil_iff]
  intro c hMem
  simpa using List.all_eq_true.mp hNone c hMem

theorem filter_isDigit_of_isDigits
    {t : Text}
    (hDigits : IsDigits t) :
    t.filter Char.isDigit = t :=
  List.filter_eq_self.mpr fun _ hMem => isDigit_of_mem hDigits hMem

theorem filter_isDigit_of_isBlank
    {t : Text}
    (hBlank : Text.IsBlank t) :
    t.filter Char.isDigit = [] := by
  apply filter_isDigit_eq_nil
  rw [List.all_eq_true]
  intro c hMem
  cases hDigit : c.isDigit with
  | false => rfl
  | true =>
      have hOther :=
        isBlank_eq_false_of_isNameChar (isNameChar_of_isDigit hDigit)
      rw [Text.isBlank_iff.mp hBlank c hMem] at hOther
      exact absurd hOther (by decide)

theorem significantDigits_trim
    (t : Text) :
    significantDigits (Text.trim t) = significantDigits t := by
  rcases Text.exists_blanks_trim t
    with ⟨b, b', hBlank, hBlank', hText⟩
  have hFilter :
      t.filter Char.isDigit =
        (Text.trim t).filter Char.isDigit := by
    rw [hText, List.filter_append, List.filter_append,
      filter_isDigit_of_isBlank hBlank,
      filter_isDigit_of_isBlank hBlank', List.nil_append,
      List.append_nil, ← hText]
  rw [significantDigits, significantDigits, hFilter]

/- The significant digits are those of the number. -/
theorem significantDigits_body_le_iff
    {n : Numeral}
    {sign : Text}
    (hSpelled : Numeral.IsSpelled n)
    (hSign : sign.all (fun c => !c.isDigit) = true)
    (k : Nat) :
    significantDigits (sign ++ n.body) ≤ k ↔
      n.digits < 10 ^ k := by
  have hFilter :
      (sign ++ n.body).filter Char.isDigit =
        n.whole ++ n.fraction := by
    have hPoint : ('.').isDigit = false := by decide
    rw [Numeral.body, List.filter_append, List.filter_append,
      List.filter_cons, hPoint, filter_isDigit_eq_nil hSign,
      filter_isDigit_of_isDigits hSpelled.whole,
      filter_isDigit_of_isDigits hSpelled.fraction]
    rfl
  rw [significantDigits, hFilter]
  exact
    length_dropWhile_zero_le_iff
      (Numeral.isDigits_whole_append_fraction hSpelled) k

------------------------------------------------------------
-- Forms
------------------------------------------------------------

/- The forms are tried one after the other. -/
theorem ofText?_eq
    (t : Text) :
    ofText? t =
      (ofForm? .string t).or
        ((ofForm? .date t).or
          ((ofForm? .integer t).or
            ((ofForm? (pointForm t) t).or (ofForm? .boolean t)))) := by
  simp only [ofText?, List.findSome?_cons, List.findSome?_nil]
  cases ofForm? .string t with
  | some v => rfl
  | none =>
      cases ofForm? .date t with
      | some v => rfl
      | none =>
          cases ofForm? .integer t with
          | some v => rfl
          | none =>
              cases ofForm? (pointForm t) t with
              | some v => rfl
              | none =>
                  cases ofForm? .boolean t with
                  | some v => rfl
                  | none => rfl

/- What is read has one of the forms. -/
theorem exists_form_of_ofText?
    {t : Text}
    {v : Literal}
    (hRead : ofText? t = some v) :
    ∃ form,
      ofTrimmed? form (Text.trim t) = some v ∧
        (form = .number ∨ form = .bigNumber →
          form = pointForm t) := by
  rcases List.exists_of_findSome?_eq_some hRead
    with ⟨form, hMem, hForm⟩
  refine ⟨form, hForm, ?_⟩
  intro hPoint
  simp only [List.mem_cons, List.not_mem_nil, or_false] at hMem
  rcases hPoint with rfl | rfl
  · simpa using hMem
  · simpa using hMem

------------------------------------------------------------
-- Literals That Were Read
------------------------------------------------------------

/-
  The literal is in the range of what can be spelled out: a
  whole number of 64 bits, a rounded number of a numeral with
  at most fifteen digits, a number at full precision of more,
  or a date that exists.
-/
def IsRead : Literal → Prop
  | .string _ => True
  | .integer n => IsInt64 n
  | .number x =>
      ∃ source : Numeral,
        source.digits < 10 ^ maxRoundedDigits ∧
          x = Binary64.ofNumeral source
  | .bigNumber d =>
      10 ^ maxRoundedDigits ≤ d.coefficient ∧
        d.coefficient ≤ Decimal.maxCoefficient ∧
        d.scale ≤ Decimal.maxScale
  | .boolean _ => True
  | .date t => t.Exists

theorem exists_of_readDate?
    {t : Text}
    {moment : Timestamp}
    (hRead : readDate? t = some moment) :
    moment.Exists := by
  rw [readDate?] at hRead
  split at hRead
  · rw [Option.or_eq_some_iff] at hRead
    rcases hRead with hMoment | ⟨-, hDay⟩
    · exact Timestamp.exists_of_readMoment? hMoment
    · exact Timestamp.exists_of_readDay? hDay
  · split_ifs at hRead
    · rw [Option.bind_eq_some_iff] at hRead
      rcases hRead with ⟨value, -, hMoment⟩
      exact Timestamp.exists_of_readMoment? hMoment
    · rw [Option.bind_eq_some_iff] at hRead
      rcases hRead with ⟨value, -, hDay⟩
      exact Timestamp.exists_of_readDay? hDay

/- The digits of a numeral are those of its text. -/
theorem significantDigits_le_iff
    {t : Text}
    {n : Numeral}
    (hRead : Numeral.ofText? (Text.trim t) = some n)
    (k : Nat) :
    significantDigits t ≤ k ↔ n.digits < 10 ^ k := by
  rcases Numeral.exists_body_of_ofText? hRead
    with ⟨hSpelled, sign, hText, hSign⟩
  rw [← significantDigits_trim, hText]
  exact significantDigits_body_le_iff hSpelled hSign k

/- The digits of a numeral decide about its form. -/
theorem pointForm_eq_number_iff
    {t : Text}
    {n : Numeral}
    (hRead : Numeral.ofText? (Text.trim t) = some n) :
    (pointForm t = .number ↔ n.digits < 10 ^ maxRoundedDigits) ∧
      (pointForm t = .bigNumber ↔
        10 ^ maxRoundedDigits ≤ n.digits) := by
  have hFew := significantDigits_le_iff hRead maxRoundedDigits
  rw [pointForm]
  split_ifs with hMany
  · have hLarge : ¬ n.digits < 10 ^ maxRoundedDigits :=
      mt hFew.mpr (Nat.not_le.mpr hMany)
    exact
      ⟨⟨fun h => absurd h (by decide),
          fun h => absurd h hLarge⟩,
        ⟨fun _ => Nat.not_lt.mp hLarge, fun _ => rfl⟩⟩
  · have hSmall := hFew.mp (Nat.not_lt.mp hMany)
    exact
      ⟨⟨fun _ => hSmall, fun _ => rfl⟩,
        ⟨fun h => absurd h (by decide),
          fun h => absurd hSmall (Nat.not_lt.mpr h)⟩⟩

/- What is read is in the range of its form. -/
theorem isRead_of_ofText?
    {t : Text}
    {v : Literal}
    (hRead : ofText? t = some v) :
    IsRead v := by
  rcases exists_form_of_ofText? hRead with ⟨form, hForm, hPoint⟩
  cases form with
  | string =>
      rcases Option.map_eq_some_iff.mp hForm with ⟨value, -, rfl⟩
      trivial
  | integer =>
      rcases Option.map_eq_some_iff.mp hForm
        with ⟨n, hNumber, rfl⟩
      exact isInt64_of_integerOfText? hNumber
  | number =>
      rcases Option.map_eq_some_iff.mp hForm
        with ⟨n, hNumeral, rfl⟩
      have hDigits := (pointForm_eq_number_iff hNumeral).1
      exact ⟨n, hDigits.mp (hPoint (Or.inl rfl)).symm, rfl⟩
  | bigNumber =>
      rcases Option.map_eq_some_iff.mp hForm
        with ⟨d, hDecimal, rfl⟩
      rcases Option.bind_eq_some_iff.mp hDecimal
        with ⟨n, hNumeral, hFits⟩
      have hDigits := (pointForm_eq_number_iff hNumeral).2
      have hMany := hDigits.mp (hPoint (Or.inr rfl)).symm
      have hSpelled := Numeral.isSpelled_of_ofText? hNumeral
      rw [Decimal.ofNumeral?_of_isSpelled hSpelled,
        Option.ite_none_right_eq_some] at hFits
      rcases hFits with ⟨⟨hCoefficient, hScale⟩, hEq⟩
      cases hEq
      exact ⟨hMany, hCoefficient, hScale⟩
  | boolean =>
      rcases Option.map_eq_some_iff.mp hForm with ⟨value, -, rfl⟩
      trivial
  | date =>
      rcases Option.map_eq_some_iff.mp hForm
        with ⟨moment, hDate, rfl⟩
      exact exists_of_readDate? hDate

------------------------------------------------------------
-- Literals That Are Read Back
------------------------------------------------------------

/-
  The text of the literal says all of it. The text of a
  number must not have more digits than a rounded number, a
  number at full precision needs a point, and the parts of a
  millisecond are left out of the text of a date.
-/
def Recalled : Literal → Prop
  | .number x => significantDigits x.pointedText ≤ maxRoundedDigits
  | .bigNumber d => d.scale ≠ 0
  | .date t => t.nanosecond % 10 ^ 6 = 0
  | _ => True

instance
    (v : Literal) :
    Decidable (Recalled v) :=
  match v with
  | .number x =>
      Nat.decLe (significantDigits x.pointedText) maxRoundedDigits
  | .bigNumber d => inferInstanceAs (Decidable (¬ d.scale = 0))
  | .date t => Nat.decEq (t.nanosecond % 10 ^ 6) 0
  | .string _ | .integer _ | .boolean _ => isTrue trivial

------------------------------------------------------------
-- Numbers in Writing
------------------------------------------------------------

/- The character can stand in a number. -/
def isNumberChar
    (c : Char) : Bool :=
  c.isDigit || c == '.' || c == '-'

/- Such a character is no blank, no letter and no mark. -/
theorem of_isNumberChar
    {c : Char}
    (hChar : isNumberChar c = true) :
    isBlank c = false ∧ c.isAlpha = false ∧ ¬ IsDelimiter c := by
  have hAll :
      (!isBlank c && !c.isAlpha && !decide (IsDelimiter c)) =
        true := by
    rcases Bool.or_eq_true_iff.mp hChar with hFront | hMinus
    · rcases Bool.or_eq_true_iff.mp hFront with hDigit | hPoint
      · exact
          of_isDigit
            (p := fun c =>
              !isBlank c && !c.isAlpha && !decide (IsDelimiter c))
            hDigit (by decide)
      · rw [eq_of_beq hPoint]
        decide
    · rw [eq_of_beq hMinus]
      decide
  simpa [Bool.and_eq_true, and_assoc] using hAll

/- The text is that of a number. -/
structure IsNumberText
    (t : Text) : Prop where
  chars : ∀ c ∈ t, isNumberChar c = true
  some : t ≠ []

theorem isNumberChar_of_isDigits
    {t : Text}
    (hDigits : IsDigits t)
    {c : Char}
    (hMem : c ∈ t) :
    isNumberChar c = true := by
  rw [isNumberChar, isDigit_of_mem hDigits hMem]
  rfl

theorem isNumberChar_of_mem_minusSign
    {negative : Bool}
    {c : Char}
    (hMem : c ∈ minusSign negative) :
    isNumberChar c = true := by
  cases negative with
  | true =>
      rw [List.mem_singleton.mp hMem]
      decide
  | false => exact absurd hMem (by simp [minusSign])

theorem isNumberText_digits
    (negative : Bool)
    (n : Nat) :
    IsNumberText (minusSign negative ++ digitsOf n) := by
  constructor
  · intro c hMem
    rcases List.mem_append.mp hMem with hSign | hDigits
    · exact isNumberChar_of_mem_minusSign hSign
    · exact isNumberChar_of_isDigits (isDigits_digitsOf _) hDigits
  · exact List.append_ne_nil_of_right_ne_nil _ (digitsOf_ne_nil _)

theorem isNumberText_body
    {n : Numeral}
    (hSpelled : Numeral.IsSpelled n) :
    IsNumberText (minusSign n.negative ++ n.body) := by
  constructor
  · intro c hMem
    rcases List.mem_append.mp hMem with hSign | hBody
    · exact isNumberChar_of_mem_minusSign hSign
    rcases List.mem_append.mp hBody with hWhole | hRest
    · exact isNumberChar_of_isDigits hSpelled.whole hWhole
    rcases List.mem_cons.mp hRest with hPoint | hFraction
    · rw [hPoint]
      decide
    · exact isNumberChar_of_isDigits hSpelled.fraction hFraction
  · apply List.append_ne_nil_of_right_ne_nil
    exact List.append_ne_nil_of_right_ne_nil _
      (List.cons_ne_nil _ _)

theorem IsNumberText.trim
    {t : Text}
    (hNumber : IsNumberText t) :
    Text.trim t = t :=
  Text.trim_eq_of_isTrimmed
    (Text.isTrimmed_of_forall fun c hMem =>
      (of_isNumberChar (hNumber.chars c hMem)).1)

/- The text of a number is no date. -/
theorem readDate?_eq_none
    {t : Text}
    (hNumber : IsNumberText t) :
    readDate? t = none := by
  cases t with
  | nil => exact absurd rfl hNumber.some
  | cons c t =>
      have hChar := hNumber.chars c List.mem_cons_self
      rcases of_isNumberChar hChar with ⟨-, hAlpha, hPlain⟩
      have hOpening : bracketed? (c :: t) = none := by
        apply if_neg
        rintro ⟨-, hHead, -⟩
        rw [List.head?_cons, Option.some.injEq] at hHead
        rw [hHead] at hPlain
        exact hPlain (by decide)
      have hWord
          (word : Text)
          (hLetter : (Text.initial word).any Char.isAlpha = true) :
          Text.startsWord word (c :: t) = false := by
        apply Text.startsWord_eq_false_of_initial
        · rintro rfl
          exact absurd hLetter (by decide)
        · intro hSame
          rw [hSame, Text.initial, List.head?_cons, Option.map_some,
            Option.any_some, isAlpha_toLower, hAlpha] at hLetter
          exact absurd hLetter (by decide)
      rw [readDate?, hOpening]
      simp only [hWord "TIMESTAMP".toList (by decide),
        hWord "DATE".toList (by decide),
        Bool.false_eq_true, if_false]

theorem ofText?_of_isNumberText
    {t : Text}
    (hNumber : IsNumberText t) :
    ofText? t =
      ((integerOfText? t).map .integer).or
        ((ofTrimmed? (pointForm t) t).or
          ((readBoolean? t).map .boolean)) := by
  have hString : Quoted.unquote? t = none := by
    apply Quoted.unquote?_eq_none_of_head
    intro hHead
    have hChar :=
      hNumber.chars '\'' (List.mem_of_mem_head? hHead)
    exact absurd hChar (by decide)
  rw [ofText?_eq]
  simp only [ofForm?, hNumber.trim, ofTrimmed?, hString,
    readDate?_eq_none hNumber, Option.map_none, Option.none_or]

/- Digits with a point are a number with a point. -/
theorem ofText?_body
    {n : Numeral}
    (hSpelled : Numeral.IsSpelled n) :
    ofText? (minusSign n.negative ++ n.body) =
      (ofTrimmed? (pointForm (minusSign n.negative ++ n.body))
        (minusSign n.negative ++ n.body)).or
        ((readBoolean? (minusSign n.negative ++ n.body)).map
          .boolean) := by
  have hInteger :
      integerOfText? (minusSign n.negative ++ n.body) = none := by
    apply integerOfText?_eq_none
    rw [splitSign_minusSign _ (Numeral.startsUnsigned_body hSpelled)]
    intro hDigits
    have hPoint : '.' ∈ n.body := by simp [Numeral.body]
    exact point_not_mem_of_isDigits hDigits hPoint
  rw [ofText?_of_isNumberText (isNumberText_body hSpelled),
    hInteger, Option.map_none, Option.none_or]

/- The text of a number that was read is that of a numeral. -/
theorem exists_body_of_isRead_number
    {x : Binary64}
    (hRead : IsRead (.number x)) :
    ∃ n : Numeral,
      x.pointedText = minusSign n.negative ++ n.body ∧
        Numeral.IsSpelled n ∧ Binary64.ofNumeral n = x := by
  rcases hRead with ⟨source, hFew, rfl⟩
  exact Binary64.exists_numeral_pointedText hFew

/- With places behind the point, so is a number in full. -/
theorem exists_body_of_decimal
    {d : Decimal}
    (hPlaces : d.scale ≠ 0) :
    ∃ n : Numeral,
      d.text = minusSign n.negative ++ n.body ∧
        Numeral.IsSpelled n ∧ n.negative = d.negative ∧
        n.digits = d.coefficient ∧ n.scale = d.scale := by
  rcases Numeral.exists_positional d.negative d.coefficient hPlaces
    with ⟨n, hBody, hSpelled, hNegative, hDigits, hScale⟩
  refine ⟨n, ?_, hSpelled, hNegative, hDigits, hScale⟩
  rw [Decimal.text, hBody, hNegative]

------------------------------------------------------------
-- Reading Back
------------------------------------------------------------

theorem ofText?_written_number
    {x : Binary64}
    (hRead : IsRead (.number x))
    (hRecalled : Recalled (.number x)) :
    ofText? x.pointedText = some (.number x) := by
  rcases exists_body_of_isRead_number hRead
    with ⟨n, hText, hSpelled, hNumber⟩
  have hForm : pointForm x.pointedText = .number :=
    if_neg (Nat.not_lt.mpr hRecalled)
  rw [hText] at hForm ⊢
  rw [ofText?_body hSpelled, hForm, ofTrimmed?,
    Numeral.ofText?_body hSpelled, Option.map_some, hNumber,
    Option.some_or]

theorem ofText?_written_bigNumber
    {d : Decimal}
    (hRead : IsRead (.bigNumber d))
    (hRecalled : Recalled (.bigNumber d)) :
    ofText? d.text = some (.bigNumber d) := by
  rcases exists_body_of_decimal hRecalled
    with ⟨n, hText, hSpelled, hNegative, hDigits, hScale⟩
  rcases hRead with ⟨hMany, hCoefficient, hMaxScale⟩
  have hNumeral := Numeral.ofText?_body hSpelled
  have hTrim := (isNumberText_body hSpelled).trim
  have hForm :
      pointForm (minusSign n.negative ++ n.body) = .bigNumber := by
    rw [← hTrim] at hNumeral
    apply (pointForm_eq_number_iff hNumeral).2.mpr
    rw [hDigits]
    exact hMany
  have hDecimal : Decimal.ofNumeral? n = some d := by
    rw [Decimal.ofNumeral?_of_isSpelled hSpelled, hDigits, hScale,
      hNegative, if_pos ⟨hCoefficient, hMaxScale⟩]
  rw [hText, ofText?_body hSpelled, hForm, ofTrimmed?, hNumeral,
    Option.bind_some, hDecimal, Option.map_some, Option.some_or]

theorem ofText?_written_date
    {t : Timestamp}
    (hExists : t.Exists) :
    ofText? (Literal.date t).written =
      some (.date t.toMillisecond) := by
  have hTrim :
      Text.trim ('[' :: (t.slashed ++ [']'])) =
        '[' :: (t.slashed ++ [']']) :=
    Text.trim_surround_chars _ (by decide) (by decide)
  have hString :
      Quoted.unquote? ('[' :: (t.slashed ++ [']'])) = none :=
    Quoted.unquote?_eq_none_of_head (by simp)
  have hOpening :
      bracketed? ('[' :: (t.slashed ++ [']'])) =
        some t.slashed := by
    have hEnds :
        2 ≤ ('[' :: (t.slashed ++ [']'])).length ∧
          ('[' :: (t.slashed ++ [']'])).head? = some '[' ∧
          ('[' :: (t.slashed ++ [']'])).getLast? = some ']' :=
      ⟨by simp, rfl, Text.getLast?_surround _ _ _⟩
    rw [bracketed?, if_pos hEnds, Text.inner_surround]
  have hInside :=
    Text.trim_eq_of_isTrimmed (Timestamp.isTrimmed_slashed t)
  rw [written, ofText?_eq]
  simp only [ofForm?, hTrim, ofTrimmed?, hString, readDate?,
    hOpening, hInside, Timestamp.readMoment?_slashed hExists,
    Option.map_none, Option.none_or, Option.some_or,
    Option.map_some]

/- What the text says all of is read back from it. -/
theorem ofText?_written
    {v : Literal}
    (hRead : IsRead v)
    (hRecalled : Recalled v) :
    ofText? v.written = some v := by
  cases v with
  | string value =>
      rw [written, ofText?_eq, ofForm?, Quoted.trim_quote,
        ofTrimmed?, Quoted.unquote?_quote]
      rfl
  | integer n =>
      have hText : IsNumberText (integerText n) :=
        isNumberText_digits _ _
      rw [written, ofText?_of_isNumberText hText,
        integerOfText?_integerText hRead]
      rfl
  | number x => exact ofText?_written_number hRead hRecalled
  | bigNumber d => exact ofText?_written_bigNumber hRead hRecalled
  | boolean value =>
      cases value with
      | true => decide
      | false => decide
  | date t =>
      rw [ofText?_written_date hRead,
        Timestamp.toMillisecond_eq_self_iff.mpr hRecalled]

theorem form_of_number
    {form : Form}
    {t : Text}
    {x : Binary64}
    (hRead : ofTrimmed? form t = some (.number x)) :
    form = .number := by
  cases form with
  | number => rfl
  | _ =>
      rcases Option.map_eq_some_iff.mp hRead with ⟨a, -, hEq⟩
      cases hEq

theorem form_of_bigNumber
    {form : Form}
    {t : Text}
    {d : Decimal}
    (hRead : ofTrimmed? form t = some (.bigNumber d)) :
    form = .bigNumber := by
  cases form with
  | bigNumber => rfl
  | _ =>
      rcases Option.map_eq_some_iff.mp hRead with ⟨a, -, hEq⟩
      cases hEq

/- What is read as a rounded number has few digits. -/
theorem significantDigits_of_number
    {t : Text}
    {x : Binary64}
    (hRead : ofText? t = some (.number x)) :
    significantDigits t ≤ maxRoundedDigits := by
  rcases exists_form_of_ofText? hRead with ⟨form, hForm, hPoint⟩
  have hNumber := form_of_number hForm
  have hEq := hPoint (Or.inl hNumber)
  rw [hNumber, pointForm] at hEq
  split_ifs at hEq with hMany
  exact Nat.not_lt.mp hMany

/- What is read as a number in full has a point. -/
theorem point_mem_of_bigNumber
    {t : Text}
    {d : Decimal}
    (hRead : ofText? t = some (.bigNumber d)) :
    '.' ∈ Text.trim t := by
  rcases exists_form_of_ofText? hRead with ⟨form, hForm, -⟩
  rw [form_of_bigNumber hForm, ofTrimmed?,
    Option.map_eq_some_iff] at hForm
  rcases hForm with ⟨decimal, hDecimal, -⟩
  rcases Option.bind_eq_some_iff.mp hDecimal
    with ⟨n, hNumeral, -⟩
  by_contra hNone
  rw [Numeral.ofText?_eq_none_of_point hNone] at hNumeral
  exact absurd hNumeral (by simp)

/- What is read back with an equal value was said in full. -/
theorem recalled_of_ofText?_written
    {v w : Literal}
    (hRead : IsRead v)
    (hBack : ofText? v.written = some w)
    (hSame : SameValue v w) :
    Recalled v := by
  cases v with
  | string value => trivial
  | integer n => trivial
  | boolean value => trivial
  | number x =>
      cases w with
      | number y => exact significantDigits_of_number hBack
      | _ => exact hSame.elim
  | bigNumber d =>
      cases w with
      | bigNumber e =>
          intro hNone
          have hPoint := point_mem_of_bigNumber hBack
          rw [written, Decimal.text, hNone,
            Numeral.positional_zero] at hPoint
          have hText := isNumberText_digits d.negative d.coefficient
          rw [hText.trim, List.mem_append] at hPoint
          rcases hPoint with hSign | hDigits
          · cases hNegative : d.negative with
            | true =>
                rw [hNegative] at hSign
                exact absurd hSign (by decide)
            | false =>
                rw [hNegative] at hSign
                exact absurd hSign (by decide)
          · exact
              point_not_mem_of_isDigits (isDigits_digitsOf _) hDigits
      | _ => exact hSame.elim
  | date t =>
      rw [ofText?_written_date hRead, Option.some.injEq] at hBack
      rw [← hBack] at hSame
      exact Timestamp.toMillisecond_eq_self_iff.mp hSame.symm

------------------------------------------------------------
-- Literals That Are the Same
------------------------------------------------------------

theorem sameValue_number_refl
    (x : Binary64) :
    x.SameValue x := by
  cases x <;> simp [Binary64.SameValue]

theorem sameOptional_refl
    (v : Option Literal) :
    SameOptional v v := by
  rcases v with _ | v
  · trivial
  · cases v <;>
      simp [SameOptional, SameValue, Decimal.SameValue,
        sameValue_number_refl]

/- A literal is read back as it was exactly if all was said. -/
theorem sameOptional_ofText?_written_iff
    {v : Literal}
    (hRead : IsRead v) :
    SameOptional (some v) (ofText? v.written) ↔ Recalled v := by
  constructor
  · intro hSame
    cases hBack : ofText? v.written with
    | none =>
        rw [hBack] at hSame
        exact hSame.elim
    | some w =>
        rw [hBack] at hSame
        exact recalled_of_ofText?_written hRead hBack hSame
  · intro hRecalled
    rw [ofText?_written hRead hRecalled]
    exact sameOptional_refl (some v)

end Literal

end SqlSelect
