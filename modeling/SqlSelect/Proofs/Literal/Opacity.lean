import SqlSelect.Proofs.Cursor.Quotes
import SqlSelect.Proofs.Literal.Spelling
import SqlSelect.Proofs.Nesting.Composition
import SqlSelect.Proofs.Recall.Dates

/-
  What keywords see of a literal. A literal is a section in
  quotes or brackets, a word and such a section behind it, a
  number or a truth value. So the only keywords in it are the
  words for dates and for truth values, and it ends neither
  with a parenthesis nor with a keyword.

  Main statements:
    * `Timestamp.Reader.Takes`
    * `Literal.Shape`
    * `Literal.shape_of_ofText?`
    * `Literal.isFree_of_ofText?`
    * `Literal.Shape.exists_last`
-/

namespace SqlSelect

------------------------------------------------------------
-- What Readers Take
------------------------------------------------------------

namespace Timestamp

variable {α β : Type}

/- The character can stand in a date between brackets. -/
def isDateChar
    (c : Char) : Bool :=
  c.isDigit || isBlank c || "+-/:.".toList.contains c

theorem all_isDateChar_of_isDigits
    {t : Text}
    (hDigits : IsDigits t) :
    t.all isDateChar = true := by
  rw [List.all_eq_true]
  intro c hMem
  rw [isDateChar, isDigit_of_mem hDigits hMem]
  rfl

theorem all_isDateChar_of_isBlank
    {t : Text}
    (hBlank : Text.IsBlank t) :
    t.all isDateChar = true := by
  rw [List.all_eq_true]
  intro c hMem
  rw [isDateChar, Text.isBlank_iff.mp hBlank c hMem, Bool.or_true]
  rfl

/- What is in front of the rest can stand in a date. -/
def Passes
    (t rest : Text) : Prop :=
  ∃ front, t = front ++ rest ∧ front.all isDateChar = true

theorem Passes.trans
    {t u rest : Text}
    (hFirst : Passes t u)
    (hSecond : Passes u rest) :
    Passes t rest := by
  rcases hFirst with ⟨front, rfl, hFront⟩
  rcases hSecond with ⟨behind, rfl, hBehind⟩
  refine ⟨front ++ behind, (List.append_assoc ..).symm, ?_⟩
  rw [List.all_append, hFront, hBehind]
  rfl

theorem passes_cons
    {c : Char}
    (t : Text)
    (hChar : isDateChar c = true) :
    Passes (c :: t) t :=
  ⟨[c], rfl, by simp [hChar]⟩

theorem passes_trimStart
    (t : Text) :
    Passes t (Text.trimStart t) :=
  ⟨t.takeWhile isBlank, (Text.takeWhile_append_trimStart t).symm,
    all_isDateChar_of_isBlank (Text.isBlank_takeWhile t)⟩

/- What the reader takes of a text can stand in a date. -/
def Reader.Takes
    (r : Reader α) : Prop :=
  ∀ t a rest, r t = some (a, rest) → Passes t rest

namespace Reader.Takes

theorem pure
    (a : α) :
    Takes fun t => some (a, t) := by
  intro t b rest hRead
  cases hRead
  exact ⟨[], rfl, rfl⟩

/- Two readers one after the other, the second as it has to be. -/
theorem bind
    {r : Reader α}
    {f : α → Reader β}
    (hFirst : Takes r)
    (hRest : ∀ a, Takes (f a)) :
    Takes fun t => (r t).bind fun (a, rest) => f a rest := by
  intro t b rest hRead
  rcases Option.bind_eq_some_iff.mp hRead with ⟨⟨a, middle⟩, hA, hB⟩
  exact (hFirst t a middle hA).trans (hRest a middle b rest hB)

theorem map
    {r : Reader α}
    (f : α → β)
    (hRead : Takes r) :
    Takes fun t => (r t).map fun (a, rest) => (f a, rest) := by
  intro t b rest hSome
  rcases Option.map_eq_some_iff.mp hSome with ⟨⟨a, _⟩, hA, hEq⟩
  cases hEq
  exact hRead t a rest hA

theorem trimStart
    {r : Reader α}
    (hRead : Takes r) :
    Takes fun t => r (Text.trimStart t) :=
  fun t a rest hSome =>
    (passes_trimStart t).trans (hRead _ a rest hSome)

theorem readDigits
    (most : Nat) :
    Takes (readDigits most) := by
  intro t found rest hRead
  rcases parts_of_readDigits hRead with ⟨hText, hDigits, -⟩
  exact ⟨found, hText, all_isDateChar_of_isDigits hDigits⟩

theorem readNumber :
    Takes readNumber :=
  ((readDigits 2).map digitsValue).trimStart

theorem readMark
    {c : Char}
    (hChar : isDateChar c = true) :
    Takes (readMark c) := by
  intro t a rest hRead
  rw [Timestamp.readMark, Option.ite_none_right_eq_some] at hRead
  rcases hRead with ⟨hHead, hEq⟩
  cases hEq
  cases t with
  | nil => cases hHead
  | cons d t =>
      cases hHead
      exact passes_cons t hChar

theorem readYear :
    Takes readYear := by
  intro t year rest hRead
  have hStart := passes_trimStart t
  rw [Timestamp.readYear] at hRead
  split at hRead
  · rename_i behind hText
    rw [hText] at hStart
    exact
      (hStart.trans (passes_cons behind (by decide))).trans
        ((readDigits behind.length).map
          (fun found => -Int.ofNat (digitsValue found)) _ _ _ hRead)
  · rename_i behind hText
    rw [hText] at hStart
    exact
      (hStart.trans (passes_cons behind (by decide))).trans
        ((readDigits behind.length).map
          (fun found => Int.ofNat (digitsValue found)) _ _ _ hRead)
  · exact
      hStart.trans
        ((readDigits 4).map
          (fun found => Int.ofNat (digitsValue found)) _ _ _ hRead)

theorem readFraction :
    Takes readFraction := by
  intro t places rest hRead
  cases t with
  | nil =>
      cases hRead
      exact ⟨[], rfl, rfl⟩
  | cons c behind =>
      by_cases hPoint : c = '.'
      · subst hPoint
        rcases Option.map_eq_some_iff.mp hRead
          with ⟨⟨found, after⟩, hFound, hEq⟩
        cases hEq
        refine
          ((passes_cons behind (by decide)).trans
            (readDigits 9 _ _ _ hFound)).trans ?_
        exact
          ⟨after.takeWhile Char.isDigit,
            List.takeWhile_append_dropWhile.symm,
            all_isDateChar_of_isDigits List.all_takeWhile⟩
      · rw [readFraction_of_ne behind hPoint] at hRead
        cases hRead
        exact ⟨[], rfl, rfl⟩

theorem dayParts
    {separator : Char}
    (hChar : isDateChar separator = true) :
    Takes (dayParts separator) :=
  readYear.bind fun y =>
    (readMark hChar).bind fun _ =>
      readNumber.bind fun m =>
        (readMark hChar).bind fun _ =>
          readNumber.bind fun d => pure (y, m, d)

theorem timeParts :
    Takes timeParts :=
  readNumber.bind fun h =>
    (readMark (by decide)).bind fun _ =>
      readNumber.bind fun m =>
        (readMark (by decide)).bind fun _ =>
          readNumber.bind fun s =>
            readFraction.bind fun places => pure (h, m, s, places)

end Reader.Takes

/- A day and a time have nothing else in them. -/
theorem all_isDateChar_of_readMoment?
    {separator : Char}
    {text : Text}
    {t : Timestamp}
    (hChar : isDateChar separator = true)
    (hRead : readMoment? separator text = some t) :
    text.all isDateChar = true := by
  rcases Option.bind_eq_some_iff.mp hRead
    with ⟨⟨day, middle⟩, hDay, hRest⟩
  rcases Option.bind_eq_some_iff.mp hRest
    with ⟨⟨time, rest⟩, hTime, hEnd⟩
  have hPasses :=
    (Reader.Takes.dayParts hChar _ _ _ hDay).trans
      (Reader.Takes.timeParts.trimStart _ _ _ hTime)
  simp only [Option.ite_none_right_eq_some] at hEnd
  rcases hPasses with ⟨front, rfl, hFront⟩
  rwa [hEnd.1.1, List.append_nil]

theorem all_isDateChar_of_readDay?
    {separator : Char}
    {text : Text}
    {t : Timestamp}
    (hChar : isDateChar separator = true)
    (hRead : readDay? separator text = some t) :
    text.all isDateChar = true := by
  rcases Option.bind_eq_some_iff.mp hRead
    with ⟨⟨day, rest⟩, hDay, hEnd⟩
  simp only [Option.ite_none_right_eq_some] at hEnd
  rcases Reader.Takes.dayParts hChar _ _ _ hDay
    with ⟨front, rfl, hFront⟩
  rwa [hEnd.1, List.append_nil]

end Timestamp

------------------------------------------------------------
-- The Shapes of Literals
------------------------------------------------------------

/- A text that is read as a string is a string literal. -/
theorem Quoted.eq_quote_of_unquote?
    {t value : Text}
    (hRead : unquote? t = some value) :
    t = quote value := by
  rw [unquote?, Option.ite_none_right_eq_some] at hRead
  rcases hRead with ⟨⟨hSize, hFirst, hLast⟩, hInner⟩
  rw [quote, double_of_unescape? hInner]
  exact Text.eq_surround hSize hFirst hLast

namespace Literal

/- The words of literals. -/
def keywords : List Text :=
  ["TRUE".toList, "FALSE".toList, "DATE".toList, "TIMESTAMP".toList]

/- How a trimmed text looks that is a literal. -/
inductive Shape
    (t : Text) : Prop where
  | bracketed
      (interior : Text)
      (hText : t = '[' :: (interior ++ [']']))
      (hInside : ']' ∉ interior)
  | quoted
      (keyword gap value : Text)
      (hText : t = keyword ++ (gap ++ Quoted.quote value))
      (hKeyword :
        keyword = [] ∨ ∃ k ∈ keywords, Text.SameWord keyword k)
      (hBlank : Text.IsBlank gap)
  | number
      (sign digits : Text)
      (negative : Bool)
      (hText : t = sign ++ digits)
      (hSign : IsSign sign negative)
      (hSome : digits ≠ [])
      (hDigits : ∀ c ∈ digits, c.isDigit = true ∨ c = '.')
  | boolean
      (k : Text)
      (hKeyword : k = "TRUE".toList ∨ k = "FALSE".toList)
      (hSame : Text.SameWord t k)

variable {t : Text}

theorem shape_of_stringAfter?
    {k value : Text}
    (hTrim : Text.trim t = t)
    (hMem : k ∈ keywords)
    (hStart : Text.startsWord k t = true)
    (hValue : stringAfter? k t = some value) :
    Shape t := by
  rcases Text.startsWord_iff.mp hStart with ⟨spelled, rest, rfl, hSame⟩
  have hDrop : (spelled ++ rest).drop k.length = rest := by
    rw [← Text.length_eq_of_sameWord hSame, List.drop_left]
  rw [stringAfter?, hDrop] at hValue
  rcases Text.exists_blanks_trim rest
    with ⟨gap, b, hGap, hBlank, hRest⟩
  rw [Quoted.eq_quote_of_unquote? hValue] at hRest
  rw [hRest, ← List.append_assoc] at hTrim
  rw [Text.eq_nil_of_trim hTrim hBlank, List.append_nil] at hRest
  exact
    .quoted spelled gap value (congrArg _ hRest) (.inr ⟨k, hMem, hSame⟩)
      hGap

/- Between brackets there is no bracket. -/
theorem shape_of_bracketed?
    {interior : Text}
    (hInterior : bracketed? t = some interior)
    (hChars : (Text.trim interior).all Timestamp.isDateChar = true) :
    Shape t := by
  rw [bracketed?, Option.ite_none_right_eq_some] at hInterior
  rcases hInterior with ⟨⟨hSize, hFirst, hLast⟩, hEq⟩
  cases hEq
  refine .bracketed _ (Text.eq_surround hSize hFirst hLast) ?_
  intro hMem
  rcases Text.exists_blanks_trim (Text.inner t)
    with ⟨b, b', hBlank, hBlank', hParts⟩
  have hAll : (Text.inner t).all Timestamp.isDateChar = true := by
    rw [hParts, List.all_append, List.all_append, hChars,
      Timestamp.all_isDateChar_of_isBlank hBlank,
      Timestamp.all_isDateChar_of_isBlank hBlank']
    rfl
  exact absurd (List.all_eq_true.mp hAll ']' hMem) (by decide)

theorem shape_of_readDate?
    {d : Timestamp}
    (hTrim : Text.trim t = t)
    (hRead : readDate? t = some d) :
    Shape t := by
  rw [readDate?] at hRead
  split at hRead
  · rename_i interior hInterior
    apply shape_of_bracketed? hInterior
    rw [Option.or_eq_some_iff] at hRead
    rcases hRead with hMoment | ⟨-, hDay⟩
    · exact Timestamp.all_isDateChar_of_readMoment? (by decide) hMoment
    · exact Timestamp.all_isDateChar_of_readDay? (by decide) hDay
  · split_ifs at hRead with hTimestamp hDate
    · rcases Option.bind_eq_some_iff.mp hRead with ⟨value, hValue, -⟩
      exact shape_of_stringAfter? hTrim (by decide) hTimestamp hValue
    · rcases Option.bind_eq_some_iff.mp hRead with ⟨value, hValue, -⟩
      exact shape_of_stringAfter? hTrim (by decide) hDate hValue

theorem shape_of_numeral
    {n : Numeral}
    (hRead : Numeral.ofText? t = some n) :
    Shape t := by
  rcases Numeral.ofText?_eq_some_iff.mp hRead
    with ⟨hSpelled, sign, hSign, hText⟩
  refine .number sign n.body n.negative hText hSign ?_ ?_
  · exact List.append_ne_nil_of_right_ne_nil _ (List.cons_ne_nil _ _)
  · intro c hMem
    rcases List.mem_append.mp hMem with hWhole | hRest
    · exact .inl (isDigit_of_mem hSpelled.whole hWhole)
    · rcases List.mem_cons.mp hRest with hPoint | hFraction
      · exact .inr hPoint
      · exact .inl (isDigit_of_mem hSpelled.fraction hFraction)

/- Every literal has one of the shapes. -/
theorem shape_of_ofText?
    {v : Literal}
    (hRead : ofText? t = some v) :
    Shape (Text.trim t) := by
  rcases exists_form_of_ofText? hRead with ⟨form, hForm, -⟩
  cases form with
  | string =>
      rcases Option.map_eq_some_iff.mp hForm with ⟨value, hValue, -⟩
      exact
        .quoted [] [] value (Quoted.eq_quote_of_unquote? hValue)
          (.inl rfl) rfl
  | integer =>
      rcases Option.map_eq_some_iff.mp hForm with ⟨n, hInteger, -⟩
      rcases integerOfText?_eq_some_iff.mp hInteger
        with ⟨sign, negative, digits, hText, hSign, hDigits, hSome, -, -⟩
      exact
        .number sign digits negative hText hSign hSome
          fun c hMem => .inl (isDigit_of_mem hDigits hMem)
  | number =>
      rcases Option.map_eq_some_iff.mp hForm with ⟨n, hNumeral, -⟩
      exact shape_of_numeral hNumeral
  | bigNumber =>
      rcases Option.map_eq_some_iff.mp hForm with ⟨d, hDecimal, -⟩
      rcases Option.bind_eq_some_iff.mp hDecimal with ⟨n, hNumeral, -⟩
      exact shape_of_numeral hNumeral
  | boolean =>
      rcases Option.map_eq_some_iff.mp hForm with ⟨value, hValue, -⟩
      rw [readBoolean?] at hValue
      split_ifs at hValue with hTrue hFalse
      · exact .boolean "TRUE".toList (.inl rfl) hTrue
      · exact .boolean "FALSE".toList (.inr rfl) hFalse
  | date =>
      rcases Option.map_eq_some_iff.mp hForm with ⟨d, hDate, -⟩
      exact shape_of_readDate? (Text.trim_trim t) hDate

------------------------------------------------------------
-- Keywords in Literals
------------------------------------------------------------

/- The characters of a number are no letters and no marks. -/
theorem plain_of_number
    {sign digits : Text}
    {negative : Bool}
    (hSign : IsSign sign negative)
    (hDigits : ∀ c ∈ digits, c.isDigit = true ∨ c = '.') :
    ∀ c ∈ sign ++ digits, ¬ IsDelimiter c ∧ c.isAlpha = false := by
  intro c hMem
  rcases List.mem_append.mp hMem with hFront | hBehind
  · refine ⟨?_, isAlpha_eq_false_of_isSign hSign hFront⟩
    cases hSign with
    | plus => rw [List.mem_singleton.mp hFront]; decide
    | minus => rw [List.mem_singleton.mp hFront]; decide
    | none => cases hFront
  · rcases hDigits c hBehind with hDigit | rfl
    · exact
        ⟨not_isDelimiter_of_isNameChar (isNameChar_of_isDigit hDigit),
          isAlpha_eq_false_of_isDigit hDigit⟩
    · decide

theorem isLetters_of_mem_keywords :
    ∀ k ∈ keywords, Text.IsLetters k := by
  decide

/- A word in front of a quote is the only keyword there. -/
theorem isFree_quoted
    {word keyword gap : Text}
    (value : Text)
    (hLetters : Text.IsLetters word)
    (hOther : ∀ k ∈ keywords, ¬ Text.SameWord k word)
    (hKeyword :
      keyword = [] ∨ ∃ k ∈ keywords, Text.SameWord keyword k)
    (hBlank : Text.IsBlank gap) :
    Text.IsFree [word] (keyword ++ (gap ++ Quoted.quote value)) := by
  have hWords := Text.isLetters_of_mem_singleton hLetters
  have hQuote : closerOf? '\'' = some '\'' := by decide
  have hBalanced : Text.Balanced (Quoted.quote value) :=
    Text.balanced_quoted hQuote value
  have hBehind : Text.IsFree [word] (gap ++ Quoted.quote value) := by
    rw [Text.IsFree, Text.cutOf_blank_append hWords hBlank hBalanced,
      Text.isFree_of_hidden hWords hBalanced
        (Text.hidden_quoted hQuote value)]
    rfl
  rcases hKeyword with rfl | ⟨k, hMem, hSame⟩
  · exact hBehind
  · have hSpelled :=
      Text.isLetters_of_sameWord hSame (isLetters_of_mem_keywords k hMem)
    -- Neither a blank nor a quote goes on with the word.
    have hStop :
        (gap ++ Quoted.quote value).head?.any isNameChar = false := by
      cases gap with
      | nil =>
          have hMark : isNameChar '\'' = false := by decide +kernel
          simp [Quoted.quote, hMark]
      | cons c gap =>
          simpa using
            isNameChar_eq_false_of_isBlank (Text.isBlank_cons.mp hBlank).1
    have hOther' : ¬ Text.SameWord keyword word := fun hWord =>
      hOther k hMem (hSame.symm.trans hWord)
    exact
      Text.isFree_name_append hLetters
        (Text.isNameChar_of_isLetters hSpelled) hOther' hStop
        (Text.balanced_append (Text.balanced_of_isBlank hBlank) hBalanced)
        hBehind

/- Every spelling of a word of letters is balanced. -/
theorem balanced_of_sameWord
    {word k : Text}
    (hLetters : Text.IsLetters k)
    (hSame : Text.SameWord word k) :
    Text.Balanced word :=
  Text.balanced_of_plain
    (Text.plain_of_isLetters (Text.isLetters_of_sameWord hSame hLetters))

/- Literals are balanced. -/
theorem Shape.balanced
    (hShape : Shape t) :
    Text.Balanced t := by
  cases hShape with
  | bracketed interior hText hInside =>
      rw [hText]
      exact
        Text.balanced_section (by decide) (Text.run_inside 0 hInside)
  | quoted keyword gap value hText hKeyword hBlank =>
      rw [hText]
      refine
        Text.balanced_append ?_
          (Text.balanced_append (Text.balanced_of_isBlank hBlank)
            (Text.balanced_quoted (by decide) value))
      rcases hKeyword with rfl | ⟨k, hMem, hSame⟩
      · exact Text.balanced_nil
      · exact balanced_of_sameWord (isLetters_of_mem_keywords k hMem) hSame
  | number sign digits negative hText hSign hSome hDigits =>
      rw [hText]
      exact
        Text.balanced_of_plain fun c h =>
          (plain_of_number hSign hDigits c h).1
  | boolean k hKeyword hSame =>
      have hMem : k ∈ keywords := by
        rcases hKeyword with rfl | rfl
        · decide
        · decide
      exact balanced_of_sameWord (isLetters_of_mem_keywords k hMem) hSame

/-
  A literal is free of every keyword that is none of its own
  words.
-/
theorem Shape.isFree
    {word : Text}
    (hLetters : Text.IsLetters word)
    (hOther : ∀ k ∈ keywords, ¬ Text.SameWord k word)
    (hShape : Shape t) :
    Text.IsFree [word] t := by
  have hWords := Text.isLetters_of_mem_singleton hLetters
  cases hShape with
  | bracketed interior hText hInside =>
      have hBracket : closerOf? '[' = some ']' := by decide
      have hRun := Text.run_inside 0 hInside
      rw [hText]
      exact
        Text.isFree_of_hidden hWords (Text.balanced_section hBracket hRun)
          (Text.hidden_section hBracket hRun
            (Text.hidden_marking_inside 0 hInside))
  | quoted keyword gap value hText hKeyword hBlank =>
      rw [hText]
      exact isFree_quoted value hLetters hOther hKeyword hBlank
  | number sign digits negative hText hSign hSome hDigits =>
      have hPlain := plain_of_number hSign hDigits
      rw [hText]
      exact
        Text.isFree_of_no_letter hWords
          (Text.balanced_of_plain fun c h => (hPlain c h).1)
          fun c h => (hPlain c h).2
  | boolean k hKeyword hSame =>
      have hMem : k ∈ keywords := by
        rcases hKeyword with rfl | rfl
        · decide
        · decide
      have hSpelled :=
        Text.isLetters_of_sameWord hSame (isLetters_of_mem_keywords k hMem)
      apply
        Text.isFree_of_word hWords (Text.isNameChar_of_isLetters hSpelled)
      intro hSpells
      exact
        hOther k hMem
          (hSame.symm.trans (Text.sameWord_of_spells hSpells))

/- How the shapes end. -/
theorem Shape.exists_last
    (hShape : Shape t) :
    ∃ c,
      t.getLast? = some c ∧
        (c = '\'' ∨ c = ']' ∨ c = '.' ∨ c.isDigit = true ∨
          c.toLower = 'e') := by
  cases hShape with
  | bracketed interior hText hInside =>
      exact ⟨']', hText ▸ Text.getLast?_surround _ _ _, by simp⟩
  | quoted keyword gap value hText hKeyword hBlank =>
      refine ⟨'\'', ?_, by simp⟩
      rw [hText, List.getLast?_append_of_ne_nil _ (by simp [Quoted.quote]),
        List.getLast?_append_of_ne_nil _ (by simp [Quoted.quote])]
      exact Text.getLast?_surround _ _ _
  | number sign digits negative hText hSign hSome hDigits =>
      refine ⟨digits.getLast hSome, ?_, ?_⟩
      · rw [hText, List.getLast?_append_of_ne_nil _ hSome,
          List.getLast?_eq_some_getLast hSome]
      · rcases hDigits _ (List.getLast_mem hSome) with hDigit | hPoint
        · exact .inr (.inr (.inr (.inl hDigit)))
        · exact .inr (.inr (.inl hPoint))
  | boolean k hKeyword hSame =>
      have hLast :
          (Text.foldCase t).getLast? = some 'e' := by
        rw [show Text.foldCase t = Text.foldCase k from hSame]
        rcases hKeyword with rfl | rfl
        · rfl
        · rfl
      rw [Text.foldCase, List.getLast?_map, Option.map_eq_some_iff]
        at hLast
      rcases hLast with ⟨c, hGet, hLower⟩
      exact ⟨c, hGet, by simp [hLower]⟩

/- No keyword but its own words is in a literal. -/
theorem isFree_of_ofText?
    {word : Text}
    {v : Literal}
    (hLetters : Text.IsLetters word)
    (hOther : ∀ k ∈ keywords, ¬ Text.SameWord k word)
    (hRead : ofText? (Text.trim t) = some v) :
    Text.IsFree [word] t := by
  have hWords := Text.isLetters_of_mem_singleton hLetters
  have hShape := shape_of_ofText? hRead
  rw [Text.trim_trim] at hShape
  rcases Text.exists_blanks_trim t with ⟨b, b', hBlank, hBlank', hText⟩
  rw [hText, List.append_assoc]
  exact
    Text.isFree_surround hWords hBlank hBlank' hShape.balanced
      (hShape.isFree hLetters hOther)

end Literal

end SqlSelect
