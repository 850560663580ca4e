import Mathlib.Algebra.Group.Nat.Defs
import SqlSelect.Number.Numeral
import SqlSelect.Proofs.Text.Characters

/-
  Digits and the numbers that they denote. The digits of a
  number denote it, with zeros in front or without, and so do
  the texts of whole numbers and of numerals.

  Main statements:
    * `digitsValue_append`
    * `digitsValue_paddedDigits`
    * `length_dropWhile_zero_le_iff`
    * `IsSign`
    * `integerOfText?_eq_some_iff`
    * `integerOfText?_integerText`
    * `Numeral.ofText?_eq_some_iff`
    * `Numeral.ofText?_body`
    * `Numeral.exists_positional`
-/

namespace SqlSelect

------------------------------------------------------------
-- Texts of Digits
------------------------------------------------------------

theorem isDigit_of_mem
    {t : Text}
    (hDigits : IsDigits t)
    {c : Char}
    (hMem : c ∈ t) :
    c.isDigit = true :=
  List.all_eq_true.mp hDigits c hMem

@[simp]
theorem isDigits_nil :
    IsDigits [] := rfl

@[simp]
theorem isDigits_cons
    {c : Char}
    {t : Text} :
    IsDigits (c :: t) ↔ c.isDigit = true ∧ IsDigits t := by
  simp [IsDigits]

@[simp]
theorem isDigits_append
    {s t : Text} :
    IsDigits (s ++ t) ↔ IsDigits s ∧ IsDigits t := by
  simp [IsDigits]

theorem isDigits_digitsOf
    (n : Nat) :
    IsDigits (digitsOf n) :=
  List.all_eq_true.mpr fun _ hMem =>
    Nat.isDigit_of_mem_toDigits (by decide) (by decide) hMem

theorem isDigits_paddedDigits
    (width n : Nat) :
    IsDigits (paddedDigits width n) := by
  rw [paddedDigits, isDigits_append]
  refine ⟨?_, isDigits_digitsOf n⟩
  refine List.all_eq_true.mpr ?_
  intro c hMem
  rw [List.eq_of_mem_replicate hMem]
  rfl

theorem digitsOf_ne_nil
    (n : Nat) :
    digitsOf n ≠ [] :=
  Nat.toDigits_ne_nil

theorem length_digitsOf_pos
    (n : Nat) :
    0 < (digitsOf n).length :=
  Nat.length_toDigits_pos

/- As many digits as there are powers of ten below. -/
theorem length_digitsOf_le_iff
    {n k : Nat}
    (hSome : 0 < k) :
    (digitsOf n).length ≤ k ↔ n < 10 ^ k :=
  Nat.length_toDigits_le_iff (by decide) hSome

theorem pow_length_digitsOf_le
    {n : Nat}
    (hPos : 0 < n) :
    10 ^ ((digitsOf n).length - 1) ≤ n := by
  by_cases hOne : (digitsOf n).length - 1 = 0
  · rw [hOne]
    omega
  · have hIff :=
      length_digitsOf_le_iff (n := n) (Nat.pos_of_ne_zero hOne)
    have hSome := length_digitsOf_pos n
    apply Nat.le_of_not_lt
    intro hLess
    have hShort := hIff.mpr hLess
    omega

theorem lt_pow_length_digitsOf
    (n : Nat) :
    n < 10 ^ (digitsOf n).length :=
  (length_digitsOf_le_iff (length_digitsOf_pos n)).mp
    (Nat.le_refl _)

theorem length_paddedDigits
    (width n : Nat) :
    (paddedDigits width n).length =
      max width (digitsOf n).length := by
  rw [paddedDigits, List.length_append, List.length_replicate]
  omega

theorem paddedDigits_ne_nil
    (width n : Nat) :
    paddedDigits width n ≠ [] := by
  rw [paddedDigits]
  exact List.append_ne_nil_of_right_ne_nil _ (digitsOf_ne_nil n)

theorem length_paddedDigits_of_lt
    {width n : Nat}
    (hSome : 0 < width)
    (hLess : n < 10 ^ width) :
    (paddedDigits width n).length = width := by
  rw [length_paddedDigits]
  exact Nat.max_eq_left ((length_digitsOf_le_iff hSome).mpr hLess)

------------------------------------------------------------
-- Values
------------------------------------------------------------

theorem digitsValue_append
    (s t : Text) :
    digitsValue (s ++ t) =
      10 ^ t.length * digitsValue s + digitsValue t := by
  rw [digitsValue, Nat.ofDigitChars_append,
    Nat.ofDigitChars_eq_ofDigitChars_zero]
  rfl

theorem digitsValue_cons
    (c : Char)
    (t : Text) :
    digitsValue (c :: t) =
      10 ^ t.length * digitsValue [c] + digitsValue t :=
  digitsValue_append [c] t

theorem digitsValue_digitsOf
    (n : Nat) :
    digitsValue (digitsOf n) = n :=
  Nat.ofDigitChars_ten_toDigits

theorem digitsValue_replicate_zero
    (n : Nat) :
    digitsValue (List.replicate n '0') = 0 :=
  Nat.ofDigitChars_replicate_zero

theorem digitsValue_paddedDigits
    (width n : Nat) :
    digitsValue (paddedDigits width n) = n := by
  rw [paddedDigits, digitsValue_append,
    digitsValue_replicate_zero, digitsValue_digitsOf]
  omega

/- A digit is worth less than ten, and nothing only if zero. -/
theorem digitsValue_singleton
    {c : Char}
    (hDigit : c.isDigit = true) :
    digitsValue [c] < 10 ∧ (digitsValue [c] = 0 → c = '0') := by
  have hAll :=
    of_isDigit
      (p := fun c =>
        decide (digitsValue [c] < 10) &&
          (digitsValue [c] != 0 || c == '0'))
      hDigit (by decide)
  simp only [Bool.and_eq_true, decide_eq_true_eq,
    Bool.or_eq_true, bne_iff_ne, beq_iff_eq] at hAll
  refine ⟨hAll.1, fun hZero => ?_⟩
  rcases hAll.2 with hNot | hChar
  · exact absurd hZero hNot
  · exact hChar

theorem digitsValue_lt
    {t : Text}
    (hDigits : IsDigits t) :
    digitsValue t < 10 ^ t.length := by
  induction t with
  | nil => exact Nat.one_pos
  | cons c t ih =>
      rcases isDigits_cons.mp hDigits with ⟨hHead, hRest⟩
      have hDigit := (digitsValue_singleton hHead).1
      have hLess := ih hRest
      have hMul :
          10 ^ t.length * digitsValue [c] ≤ 10 ^ t.length * 9 :=
        Nat.mul_le_mul_left _ (Nat.le_of_lt_succ hDigit)
      rw [digitsValue_cons, List.length_cons, Nat.pow_succ]
      omega

/-
  Without the zeros in front, a text of digits has as many
  digits as its number has.
-/
theorem length_dropWhile_zero_le_iff
    {t : Text}
    (hDigits : IsDigits t)
    (k : Nat) :
    (t.dropWhile fun c => c == '0').length ≤ k ↔
      digitsValue t < 10 ^ k := by
  induction t with
  | nil =>
      have hPow : 0 < 10 ^ k := Nat.pow_pos (by decide)
      exact ⟨fun _ => hPow, fun _ => Nat.zero_le k⟩
  | cons c t ih =>
      rcases isDigits_cons.mp hDigits with ⟨hHead, hRest⟩
      rw [List.dropWhile_cons]
      by_cases hZero : c = '0'
      · rw [if_pos (by simp [hZero]), ih hRest,
          digitsValue_cons, hZero]
        simp [digitsValue, Nat.ofDigitChars_cons]
      · have hDigit : 0 < digitsValue [c] := by
          have hNot := mt (digitsValue_singleton hHead).2 hZero
          omega
        have hAbove : 10 ^ t.length ≤ digitsValue (c :: t) := by
          rw [digitsValue_cons]
          have hMul := Nat.le_mul_of_pos_right (10 ^ t.length) hDigit
          omega
        have hBelow := digitsValue_lt hDigits
        rw [if_neg (by simp [hZero]), List.length_cons]
        rw [List.length_cons] at hBelow
        constructor
        · intro hShort
          exact Nat.lt_of_lt_of_le hBelow
            (Nat.pow_le_pow_right (by decide) hShort)
        · intro hLess
          apply Nat.lt_of_not_le
          intro hLong
          have hPow : 10 ^ k ≤ 10 ^ t.length :=
            Nat.pow_le_pow_right (by decide) hLong
          omega

------------------------------------------------------------
-- Signs
------------------------------------------------------------

/- A sign or none, and whether it is a minus sign. -/
inductive IsSign : Text → Bool → Prop where
  | none : IsSign [] false
  | plus : IsSign ['+'] false
  | minus : IsSign ['-'] true

theorem isSign_minusSign
    (negative : Bool) :
    IsSign (minusSign negative) negative := by
  cases negative with
  | true => exact .minus
  | false => exact .none

theorem IsSign.all_not_digit
    {sign : Text}
    {negative : Bool}
    (hSign : IsSign sign negative) :
    sign.all (fun c => !c.isDigit) = true := by
  cases hSign with
  | none => decide
  | plus => decide
  | minus => decide

/- The text begins with a digit or a point. -/
def StartsUnsigned
    (t : Text) : Prop :=
  t.head?.any (fun c => c.isDigit || c == '.') = true

theorem splitSign_of_unsigned
    {t : Text}
    (hStart : StartsUnsigned t) :
    splitSign t = (false, t) := by
  unfold splitSign
  split
  · exact absurd hStart (by simp [StartsUnsigned])
  · exact absurd hStart (by simp [StartsUnsigned])
  · rfl

/- A sign is split off a text that begins with none. -/
theorem splitSign_append
    {sign t : Text}
    {negative : Bool}
    (hSign : IsSign sign negative)
    (hStart : StartsUnsigned t) :
    splitSign (sign ++ t) = (negative, t) := by
  cases hSign with
  | none => exact splitSign_of_unsigned hStart
  | plus => rfl
  | minus => rfl

theorem splitSign_minusSign
    (negative : Bool)
    {t : Text}
    (hStart : StartsUnsigned t) :
    splitSign (minusSign negative ++ t) = (negative, t) :=
  splitSign_append (isSign_minusSign negative) hStart

/- What is split off is a sign. -/
theorem exists_isSign
    (t : Text) :
    ∃ sign,
      IsSign sign (splitSign t).1 ∧ t = sign ++ (splitSign t).2 := by
  unfold splitSign
  split
  · exact ⟨['-'], .minus, rfl⟩
  · exact ⟨['+'], .plus, rfl⟩
  · exact ⟨[], .none, rfl⟩

theorem startsUnsigned_append
    {s : Text}
    (t : Text)
    (hDigits : IsDigits s)
    (hNotNil : s ≠ []) :
    StartsUnsigned (s ++ t) := by
  cases s with
  | nil => exact absurd rfl hNotNil
  | cons c s =>
      have hDigit := (isDigits_cons.mp hDigits).1
      simp [StartsUnsigned, hDigit]

theorem startsUnsigned_of_isDigits
    {t : Text}
    (hDigits : IsDigits t)
    (hNotNil : t ≠ []) :
    StartsUnsigned t := by
  have hStart := startsUnsigned_append [] hDigits hNotNil
  rwa [List.append_nil] at hStart

------------------------------------------------------------
-- Whole Numbers
------------------------------------------------------------

/-
  The texts that are read as a whole number: a sign or none,
  and digits.
-/
theorem integerOfText?_eq_some_iff
    {t : Text}
    {n : Int} :
    integerOfText? t = some n ↔
      ∃ sign negative digits,
        t = sign ++ digits ∧ IsSign sign negative ∧
          IsDigits digits ∧ digits ≠ [] ∧
          n = (if negative = true then -(digitsValue digits : Int)
            else digitsValue digits) ∧
          IsInt64 n := by
  constructor
  · intro hRead
    rcases exists_isSign t with ⟨sign, hSign, hText⟩
    rcases hSplit : splitSign t with ⟨negative, digits⟩
    simp only [hSplit] at hSign hText
    simp only [integerOfText?, hSplit, Option.ite_none_right_eq_some,
      Option.some.injEq] at hRead
    rcases hRead with ⟨⟨hSome, hDigits, hFits⟩, rfl⟩
    exact
      ⟨sign, negative, digits, hText, hSign, hDigits, hSome, rfl,
        hFits⟩
  · rintro
      ⟨sign, negative, digits, rfl, hSign, hDigits, hSome, rfl, hFits⟩
    have hSplit :=
      splitSign_append hSign
        (startsUnsigned_of_isDigits hDigits hSome)
    simp only [integerOfText?, hSplit]
    exact if_pos ⟨hSome, hDigits, hFits⟩

theorem signed_natAbs
    (n : Int) :
    n =
      (if decide (n < 0) = true then -(n.natAbs : Int)
        else n.natAbs) := by
  by_cases hNegative : n < 0
  · rw [if_pos (decide_eq_true hNegative)]
    omega
  · rw [if_neg (by simpa using hNegative)]
    omega

theorem integerOfText?_integerText
    {n : Int}
    (hFits : IsInt64 n) :
    integerOfText? (integerText n) = some n := by
  refine
    integerOfText?_eq_some_iff.mpr
      ⟨minusSign (decide (n < 0)), _, digitsOf n.natAbs, rfl,
        isSign_minusSign _, isDigits_digitsOf _,
        digitsOf_ne_nil _, ?_, hFits⟩
  rw [digitsValue_digitsOf]
  exact signed_natAbs n

/- A text with a character that is none is no whole number. -/
theorem integerOfText?_eq_none
    {t : Text}
    (hOther : ¬ IsDigits (splitSign t).2) :
    integerOfText? t = none :=
  if_neg fun hAll => hOther hAll.2.1

theorem isInt64_of_integerOfText?
    {t : Text}
    {n : Int}
    (hRead : integerOfText? t = some n) :
    IsInt64 n := by
  rcases integerOfText?_eq_some_iff.mp hRead
    with ⟨-, -, -, -, -, -, -, -, hFits⟩
  exact hFits

------------------------------------------------------------
-- Numbers with a Point
------------------------------------------------------------

namespace Text

theorem cutAt?_append
    {c : Char}
    {s : Text}
    (t : Text)
    (hNone : c ∉ s) :
    cutAt? c (s ++ c :: t) = some (s, t) := by
  induction s with
  | nil => simp [cutAt?]
  | cons d s ih =>
      rw [List.mem_cons, not_or] at hNone
      rw [List.cons_append, cutAt?, if_neg (Ne.symm hNone.1),
        ih hNone.2]
      rfl

theorem cutAt?_eq_none
    {c : Char}
    {t : Text}
    (hNone : c ∉ t) :
    cutAt? c t = none := by
  induction t with
  | nil => rfl
  | cons d t ih =>
      rw [List.mem_cons, not_or] at hNone
      rw [cutAt?, if_neg (Ne.symm hNone.1), ih hNone.2]
      rfl

theorem eq_of_cutAt?
    {c : Char}
    {t before after : Text}
    (hCut : cutAt? c t = some (before, after)) :
    t = before ++ c :: after := by
  induction t generalizing before with
  | nil => exact absurd hCut (by simp [cutAt?])
  | cons d t ih =>
      rw [cutAt?] at hCut
      by_cases hHere : d = c
      · rw [if_pos hHere] at hCut
        cases hCut
        rw [hHere]
        rfl
      · rw [if_neg hHere, Option.map_eq_some_iff] at hCut
        rcases hCut with ⟨⟨front, behind⟩, hRest, hBoth⟩
        cases hBoth
        rw [ih hRest]
        rfl

end Text

theorem point_not_mem_of_isDigits
    {t : Text}
    (hDigits : IsDigits t) :
    '.' ∉ t :=
  fun hMem =>
    absurd (isDigit_of_mem hDigits hMem) (by decide)

namespace Numeral

/- The digits of the numeral with the point, but no sign. -/
def body
    (n : Numeral) : Text :=
  n.whole ++ '.' :: n.fraction

/- Both parts are digits, and there are digits. -/
structure IsSpelled
    (n : Numeral) : Prop where
  whole : IsDigits n.whole
  fraction : IsDigits n.fraction
  some : n.whole ≠ [] ∨ n.fraction ≠ []

variable {n : Numeral}

theorem startsUnsigned_body
    (hSpelled : IsSpelled n) :
    StartsUnsigned n.body := by
  by_cases hWhole : n.whole = []
  · simp [StartsUnsigned, body, hWhole]
  · exact startsUnsigned_append _ hSpelled.whole hWhole

/-
  The texts that are read as a numeral: its digits with the
  point, and a sign or none.
-/
theorem ofText?_eq_some_iff
    {t : Text} :
    ofText? t = some n ↔
      IsSpelled n ∧
        ∃ sign, IsSign sign n.negative ∧ t = sign ++ n.body := by
  constructor
  · intro hRead
    rcases exists_isSign t with ⟨sign, hSign, hText⟩
    rw [ofText?] at hRead
    simp only [Option.bind_eq_some_iff] at hRead
    rcases hRead with ⟨⟨whole, fraction⟩, hCut, hParts⟩
    rw [Option.ite_none_right_eq_some, Option.some.injEq] at hParts
    rcases hParts with ⟨⟨hSome, hWhole, hFraction⟩, rfl⟩
    rw [Text.eq_of_cutAt? hCut] at hText
    exact ⟨⟨hWhole, hFraction, hSome⟩, sign, hSign, hText⟩
  · rintro ⟨hSpelled, sign, hSign, rfl⟩
    have hSplit :=
      splitSign_append hSign (startsUnsigned_body hSpelled)
    have hCut :
        Text.cutAt? '.' n.body = some (n.whole, n.fraction) :=
      Text.cutAt?_append _
        (point_not_mem_of_isDigits hSpelled.whole)
    rw [ofText?]
    simp only [hSplit, hCut, Option.bind_some]
    exact
      if_pos ⟨hSpelled.some, hSpelled.whole, hSpelled.fraction⟩

theorem isSpelled_of_ofText?
    {t : Text}
    (hRead : ofText? t = some n) :
    IsSpelled n :=
  (ofText?_eq_some_iff.mp hRead).1

/- A numeral is read from its digits and its sign. -/
theorem ofText?_body
    (hSpelled : IsSpelled n) :
    ofText? (minusSign n.negative ++ n.body) = some n :=
  ofText?_eq_some_iff.mpr
    ⟨hSpelled, _, isSign_minusSign n.negative, rfl⟩

/- Only the digits of a numeral with a sign are read as it. -/
theorem exists_body_of_ofText?
    {t : Text}
    (hRead : ofText? t = some n) :
    IsSpelled n ∧
      ∃ sign,
        t = sign ++ n.body ∧
          sign.all (fun c => !c.isDigit) = true := by
  rcases ofText?_eq_some_iff.mp hRead
    with ⟨hSpelled, sign, hSign, hText⟩
  exact ⟨hSpelled, sign, hText, hSign.all_not_digit⟩

theorem ofText?_eq_none_of_point
    {t : Text}
    (hNone : '.' ∉ t) :
    ofText? t = none := by
  rcases exists_isSign t with ⟨sign, -, hText⟩
  have hRest : '.' ∉ (splitSign t).2 := by
    intro hMem
    rw [hText, List.mem_append, not_or] at hNone
    exact hNone.2 hMem
  rw [ofText?]
  simp only [Text.cutAt?_eq_none hRest, Option.bind_none]

theorem isDigits_whole_append_fraction
    (hSpelled : IsSpelled n) :
    IsDigits (n.whole ++ n.fraction) :=
  isDigits_append.mpr ⟨hSpelled.whole, hSpelled.fraction⟩

------------------------------------------------------------
-- Texts with a Number of Places
------------------------------------------------------------

theorem positional_zero
    (digits : Nat) :
    positional digits 0 = digitsOf digits := by
  have hLength := length_digitsOf_pos digits
  have hNone : 0 + 1 - (digitsOf digits).length = 0 := by omega
  rw [positional]
  simp [paddedDigits, hNone]

/- Where there are places, the text is that of a numeral. -/
theorem exists_positional
    (negative : Bool)
    (digits : Nat)
    {scale : Nat}
    (hPlaces : scale ≠ 0) :
    ∃ n : Numeral,
      positional digits scale = n.body ∧ IsSpelled n ∧
        n.negative = negative ∧ n.digits = digits ∧
        n.scale = scale := by
  have hAll := isDigits_paddedDigits (scale + 1) digits
  have hLength := length_paddedDigits (scale + 1) digits
  have hValue := digitsValue_paddedDigits (scale + 1) digits
  simp only [positional, if_neg hPlaces]
  generalize paddedDigits (scale + 1) digits = written
    at hAll hLength hValue ⊢
  have hTake :=
    List.take_append_drop (written.length - scale) written
  refine
    ⟨⟨negative, written.take (written.length - scale),
        written.drop (written.length - scale)⟩,
      rfl, ⟨?_, ?_, Or.inr ?_⟩, rfl, ?_, ?_⟩
  · rw [← hTake, isDigits_append] at hAll
    exact hAll.1
  · rw [← hTake, isDigits_append] at hAll
    exact hAll.2
  · apply List.ne_nil_of_length_pos
    rw [List.length_drop]
    omega
  · rw [Numeral.digits, hTake]
    exact hValue
  · rw [Numeral.scale, List.length_drop]
    omega

end Numeral

end SqlSelect
