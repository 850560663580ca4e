import SqlSelect.Literal.Quoted
import SqlSelect.Name
import SqlSelect.Proofs.Nesting.Walk

/-
  Quotes. What stands between quotes, with the quotes inside
  it doubled, is read back as it was, from a string as well
  as from a name.

  Main statements:
    * `Text.undouble_double`
    * `Quoted.unquote?_quote`
    * `Quoted.strip_quote`
    * `Name.unquote_written`
    * `Name.unquote_eq_self_iff`
-/

namespace SqlSelect

namespace Text

------------------------------------------------------------
-- Doubled Quotes
------------------------------------------------------------

theorem undouble_cons_of_ne
    {q c : Char}
    (t : Text)
    (hOther : c ≠ q) :
    undouble q (c :: t) = c :: undouble q t := by
  cases t with
  | nil => rfl
  | cons d t => simp [undouble, hOther]

/- What was written twice is written once again. -/
theorem undouble_double
    (q : Char)
    (t : Text) :
    undouble q (double q t) = t := by
  induction t with
  | nil => rfl
  | cons c t ih =>
      by_cases hQuote : c = q
      · rw [double, if_pos hQuote, undouble,
          if_pos ⟨rfl, rfl⟩, ih, hQuote]
      · rw [double, if_neg hQuote,
          undouble_cons_of_ne _ hQuote, ih]

/- Other characters are not taken away with doubled quotes. -/
theorem mem_undouble
    {c q : Char}
    {t : Text}
    (hOther : c ≠ q)
    (hMem : c ∈ t) :
    c ∈ undouble q t := by
  fun_induction undouble q t with
  | case1 => exact hMem
  | case2 => exact hMem
  | case3 a b rest hBoth ih =>
      simp only [hBoth.1, hBoth.2, List.mem_cons, hOther, false_or]
        at hMem ⊢
      exact ih hMem
  | case4 a b rest hNotBoth ih =>
      rcases List.mem_cons.mp hMem with hFirst | hRest
      · exact List.mem_cons.mpr (Or.inl hFirst)
      · exact List.mem_cons.mpr (Or.inr (ih hRest))

theorem length_undouble_le
    (q : Char)
    (t : Text) :
    (undouble q t).length ≤ t.length := by
  fun_induction undouble q t with
  | case1 => simp
  | case2 c => simp
  | case3 c d rest hBoth ih =>
      simp only [List.length_cons]
      omega
  | case4 c d rest hNotBoth ih =>
      simp only [List.length_cons] at ih ⊢
      omega

------------------------------------------------------------
-- Between Quotes
------------------------------------------------------------

theorem inner_surround
    (a b : Char)
    (t : Text) :
    inner (a :: (t ++ [b])) = t := by
  simp [inner]

/- The text is what it has inside, between its ends. -/
theorem eq_surround
    {a b : Char}
    {t : Text}
    (hSize : 2 ≤ t.length)
    (hFirst : t.head? = some a)
    (hLast : t.getLast? = some b) :
    t = a :: (inner t ++ [b]) := by
  cases t with
  | nil => cases hFirst
  | cons c rest =>
      have hHead : c = a := Option.some.inj hFirst
      rcases List.eq_nil_or_concat rest with rfl | ⟨middle, d, rfl⟩
      · exact absurd hSize (by simp)
      · have hEnd : d = b := by
          simpa [List.getLast?_cons] using hLast
        rw [hHead, hEnd]
        simp [inner]

theorem length_inner
    (t : Text) :
    (inner t).length = t.length - 2 := by
  simp only [inner, List.length_dropLast, List.length_tail]
  omega

theorem getLast?_surround
    (a b : Char)
    (t : Text) :
    (a :: (t ++ [b])).getLast? = some b := by
  rw [← List.cons_append, List.getLast?_append]
  simp

theorem isTrimmed_surround
    {a b : Char}
    (t : Text)
    (hFirst : SqlSelect.isBlank a = false)
    (hLast : SqlSelect.isBlank b = false) :
    IsTrimmed (a :: (t ++ [b])) := by
  constructor
  · simp [hFirst]
  · rw [getLast?_surround]
    simp [hLast]

theorem trim_surround_chars
    {a b : Char}
    (t : Text)
    (hFirst : SqlSelect.isBlank a = false)
    (hLast : SqlSelect.isBlank b = false) :
    trim (a :: (t ++ [b])) = a :: (t ++ [b]) :=
  trim_eq_of_isTrimmed (isTrimmed_surround t hFirst hLast)

end Text

------------------------------------------------------------
-- Strings
------------------------------------------------------------

namespace Quoted

theorem unescape?_cons_of_ne
    {c : Char}
    (t : Text)
    (hOther : c ≠ '\'') :
    unescape? (c :: t) =
      (unescape? t).map fun value => c :: value := by
  cases t with
  | nil => simp [unescape?, hOther]
  | cons d t => simp [unescape?, hOther]

theorem unescape?_double
    (t : Text) :
    unescape? (Text.double '\'' t) = some t := by
  induction t with
  | nil => rfl
  | cons c t ih =>
      by_cases hQuote : c = '\''
      · rw [Text.double, if_pos hQuote, unescape?, if_pos rfl,
          if_pos rfl, ih, hQuote]
        rfl
      · rw [Text.double, if_neg hQuote,
          unescape?_cons_of_ne _ hQuote, ih]
        rfl

/- A value without quotes is spelled as it is. -/
theorem eq_of_unescape?
    {t value : Text}
    (hRead : unescape? t = some value)
    (hNone : '\'' ∉ value) :
    t = value := by
  induction t generalizing value with
  | nil =>
      cases hRead
      rfl
  | cons c t ih =>
      by_cases hQuote : c = '\''
      · -- A quote is one of a pair, and the value has it.
        subst hQuote
        cases t with
        | nil => cases hRead
        | cons d t =>
            rw [unescape?, if_pos rfl] at hRead
            split_ifs at hRead
            rcases Option.map_eq_some_iff.mp hRead
              with ⟨rest, -, rfl⟩
            exact absurd List.mem_cons_self hNone
      · rw [unescape?_cons_of_ne t hQuote] at hRead
        rcases Option.map_eq_some_iff.mp hRead
          with ⟨rest, hRest, rfl⟩
        rw [List.mem_cons, not_or] at hNone
        rw [ih hRest hNone.2]

theorem isEnclosed_quote
    (value : Text) :
    IsEnclosed (quote value) := by
  refine ⟨?_, rfl, Text.getLast?_surround _ _ _⟩
  simp [quote]

theorem unquote?_quote
    (value : Text) :
    unquote? (quote value) = some value := by
  rw [unquote?, if_pos (isEnclosed_quote value), quote,
    Text.inner_surround, unescape?_double]

theorem eq_of_unquote?
    {t value : Text}
    (hRead : unquote? t = some value)
    (hNone : '\'' ∉ value) :
    t = '\'' :: (value ++ ['\'']) := by
  rw [unquote?, Option.ite_none_right_eq_some] at hRead
  rcases hRead with ⟨⟨hSize, hFirst, hLast⟩, hInner⟩
  rw [← eq_of_unescape? hInner hNone]
  exact Text.eq_surround hSize hFirst hLast

theorem strip_quote
    (value : Text) :
    strip (quote value) = value := by
  rw [strip, if_pos (isEnclosed_quote value), quote,
    Text.inner_surround, unescape?_double]
  rfl

theorem trim_quote
    (value : Text) :
    Text.trim (quote value) = quote value :=
  Text.trim_surround_chars _ (by decide) (by decide)

/- A text without a quote in front is no string. -/
theorem unquote?_eq_none_of_head
    {t : Text}
    (hHead : t.head? ≠ some '\'') :
    unquote? t = none :=
  if_neg fun hEnclosed => hHead hEnclosed.2.1

end Quoted

------------------------------------------------------------
-- Names
------------------------------------------------------------

namespace Name

theorem isEnclosed_quoted
    (name : Text) :
    IsEnclosed '"' (quoted name) := by
  refine ⟨?_, rfl, Text.getLast?_surround _ _ _⟩
  simp [quoted]

theorem trim_quoted
    (name : Text) :
    Text.trim (quoted name) = quoted name :=
  Text.trim_surround_chars _ (by decide) (by decide)

theorem unquote_quoted
    (name : Text) :
    unquote (quoted name) = name := by
  rw [unquote]
  simp only [trim_quoted, if_pos (isEnclosed_quoted name)]
  rw [quoted, Text.inner_surround, Text.undouble_double]

/- What is no quote is not taken away with the quotes. -/
theorem mem_unquote
    {c : Char}
    {t : Text}
    (hDouble : c ≠ '"')
    (hBack : c ≠ '\x60')
    (hMem : c ∈ Text.trim t) :
    c ∈ unquote t := by
  have hInside
      {q : Char}
      (hOther : c ≠ q)
      (hEnclosed : IsEnclosed q (Text.trim t)) :
      c ∈ Text.undouble q (Text.inner (Text.trim t)) := by
    apply Text.mem_undouble hOther
    rw [Text.eq_surround hEnclosed.1 hEnclosed.2.1 hEnclosed.2.2] at hMem
    simpa [hOther] using hMem
  rw [unquote]
  split_ifs with hIs hIs'
  · exact hInside hDouble hIs
  · exact hInside hBack hIs'
  · exact hMem

/- A name in quotes is shorter without them. -/
theorem length_unquote_lt
    {q : Char}
    {t : Text}
    (hEnclosed : IsEnclosed q t) :
    (Text.undouble q (Text.inner t)).length < t.length := by
  have hLess := Text.length_undouble_le q (Text.inner t)
  have hLength := Text.length_inner t
  have hLong := hEnclosed.1
  omega

/- The text is trimmed and not in quotes of a name. -/
def IsBare
    (t : Text) : Prop :=
  Text.trim t = t ∧ ¬ IsEnclosed '"' t ∧ ¬ IsEnclosed '\x60' t

instance
    (t : Text) :
    Decidable (IsBare t) := by
  unfold IsBare
  infer_instance

theorem unquote_of_isBare
    {t : Text}
    (hBare : IsBare t) :
    unquote t = t := by
  rw [unquote]
  simp only [hBare.1, if_neg hBare.2.1, if_neg hBare.2.2]

theorem length_trim_le
    (t : Text) :
    (Text.trim t).length ≤ t.length := by
  rcases Text.exists_blanks_trim t with ⟨b, b', -, -, hText⟩
  have hLength := congrArg List.length hText
  simp only [List.length_append] at hLength
  omega

/- A bare text is all that stands for itself. -/
theorem unquote_eq_self_iff
    {t : Text} :
    unquote t = t ↔ IsBare t := by
  refine ⟨?_, unquote_of_isBare⟩
  intro hSelf
  have hShort := length_trim_le t
  have hLength := congrArg List.length hSelf
  rw [unquote] at hSelf hLength
  by_cases hDouble : IsEnclosed '"' (Text.trim t)
  · have hLess := length_unquote_lt hDouble
    simp only [if_pos hDouble] at hLength
    omega
  by_cases hBack : IsEnclosed '\x60' (Text.trim t)
  · have hLess := length_unquote_lt hBack
    simp only [if_neg hDouble, if_pos hBack] at hLength
    omega
  simp only [if_neg hDouble, if_neg hBack] at hSelf
  rw [hSelf] at hDouble hBack
  exact ⟨hSelf, hDouble, hBack⟩

------------------------------------------------------------
-- Plain Names
------------------------------------------------------------

theorem exists_head_of_isPlainName
    {t : Text}
    (hPlain : Text.IsPlainName t) :
    ∃ c rest, t = c :: rest ∧ isNameStart c = true := by
  cases t with
  | nil => exact absurd hPlain.1 (by simp)
  | cons c rest => exact ⟨c, rest, rfl, by simpa using hPlain.1⟩

theorem isNameChar_of_mem
    {t : Text}
    (hPlain : Text.IsPlainName t)
    {c : Char}
    (hMem : c ∈ t) :
    isNameChar c = true :=
  List.all_eq_true.mp hPlain.2 c hMem

theorem isTrimmed_of_isPlainName
    {t : Text}
    (hPlain : Text.IsPlainName t) :
    Text.IsTrimmed t :=
  Text.isTrimmed_of_forall fun _ hMem =>
    isBlank_eq_false_of_isNameChar (isNameChar_of_mem hPlain hMem)

/- Characters of names stand for themselves. -/
theorem isBare_of_forall
    {t : Text}
    (hNames : ∀ c ∈ t, isNameChar c = true) :
    IsBare t := by
  have hTrimmed : Text.IsTrimmed t :=
    Text.isTrimmed_of_forall fun c hMem =>
      isBlank_eq_false_of_isNameChar (hNames c hMem)
  have hNot {q : Char} (hQuote : IsDelimiter q) : ¬ IsEnclosed q t :=
    fun hEnclosed =>
      not_isDelimiter_of_isNameChar
        (hNames q (List.mem_of_mem_head? hEnclosed.2.1)) hQuote
  exact
    ⟨Text.trim_eq_of_isTrimmed hTrimmed, hNot (by decide),
      hNot (by decide)⟩

theorem isBare_of_isPlainName
    {t : Text}
    (hPlain : Text.IsPlainName t) :
    IsBare t :=
  isBare_of_forall fun _ hMem => isNameChar_of_mem hPlain hMem

------------------------------------------------------------
-- Names as They Are Written
------------------------------------------------------------

/- A name is written as it is only if it is plain. -/
theorem written_cases
    (name : Text) :
    (Text.IsPlainName name ∧ written name = name) ∨
      (¬ Text.IsPlainName name ∧ written name = quoted name) := by
  by_cases hPlain : Text.IsPlainName name
  · exact Or.inl ⟨hPlain, if_pos hPlain⟩
  · exact Or.inr ⟨hPlain, if_neg hPlain⟩

theorem trim_written
    (name : Text) :
    Text.trim (written name) = written name := by
  rcases written_cases name with ⟨hPlain, hText⟩ | ⟨-, hText⟩
  · rw [hText]
    exact (isBare_of_isPlainName hPlain).1
  · rw [hText]
    exact trim_quoted name

theorem isTrimmed_written
    (name : Text) :
    Text.IsTrimmed (written name) := by
  have hTrimmed := Text.isTrimmed_trim (written name)
  rwa [trim_written] at hTrimmed

theorem unquote_written
    (name : Text) :
    unquote (written name) = name := by
  rcases written_cases name with ⟨hPlain, hText⟩ | ⟨-, hText⟩
  · rw [hText]
    exact unquote_of_isBare (isBare_of_isPlainName hPlain)
  · rw [hText]
    exact unquote_quoted name

theorem written_ne_nil
    (name : Text) :
    written name ≠ [] := by
  rcases written_cases name with ⟨hPlain, hText⟩ | ⟨-, hText⟩
  · rcases exists_head_of_isPlainName hPlain
      with ⟨c, rest, hName, -⟩
    rw [hText, hName]
    exact List.cons_ne_nil c rest
  · rw [hText]
    exact List.cons_ne_nil _ _

theorem balanced_written
    (name : Text) :
    Text.Balanced (written name) := by
  rcases written_cases name with ⟨hPlain, hText⟩ | ⟨-, hText⟩
  · rw [hText]
    exact
      Text.balanced_of_plain fun c hMem =>
        not_isDelimiter_of_isNameChar
          (isNameChar_of_mem hPlain hMem)
  · rw [hText]
    exact Text.balanced_quoted (by decide) name

end Name

end SqlSelect
