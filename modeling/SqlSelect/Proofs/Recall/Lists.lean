import SqlSelect.Proofs.Recall.Operands

/-
  Lists of values in writing. The values of a list are the
  strings between its commas, and what is written of one text
  of values is read back as the same text.

  Main statements:
    * `ValueList.encode_decode`
    * `Text.topPieces_join`
    * `Predicate.listValues_quoted`
-/

namespace SqlSelect

------------------------------------------------------------
-- Values in One Text
------------------------------------------------------------

namespace ValueList

theorem decode_ne_nil
    (t : Text) :
    decode t ≠ [] := by
  have hPush (c : Char) (values : List Text) :
      Text.pushFront c values ≠ [] := by
    cases values <;> simp [Text.pushFront]
  fun_cases decode t <;> simp_all

/- A character in front of a text of values that are joined. -/
theorem join_map_pushFront
    {separator : Text}
    {f : Text → Text}
    {c : Char}
    (front : Text)
    (hPush : ∀ t, f (c :: t) = front ++ f t)
    {values : List Text}
    (hSome : values ≠ []) :
    Text.join separator ((Text.pushFront c values).map f) =
      front ++ Text.join separator (values.map f) := by
  cases values with
  | nil => exact absurd rfl hSome
  | cons value rest =>
      cases rest with
      | nil => simp [Text.pushFront, Text.join, hPush]
      | cons next rest => simp [Text.pushFront, Text.join, hPush]

theorem escape_cons_of_ne
    {c : Char}
    (t : Text)
    (hOther : c ≠ ';') :
    escape (c :: t) = [c] ++ escape t := by
  rw [escape, if_neg hOther]
  rfl

/-
  The text of the values of a text is the text, by the
  recursion over it. It is not so the other way round: a
  backslash at the end of a value escapes what follows it.
-/
theorem encode_decode
    (t : Text) :
    encode (decode t) = t := by
  fun_induction decode t with
  | case1 => rfl
  | case2 => rfl
  | case3 c hOther => simp [encode, Text.join, escape, hOther]
  | case4 c d rest hBoth ih =>
      rcases hBoth with ⟨rfl, rfl⟩
      rw [encode] at ih ⊢
      rw [join_map_pushFront ['\\', ';'] (fun t => rfl)
        (decode_ne_nil rest), ih]
      rfl
  | case5 d rest hNotBoth ih =>
      rw [encode] at ih ⊢
      cases hValues : decode (d :: rest) with
      | nil => exact absurd hValues (decode_ne_nil _)
      | cons value values =>
          rw [hValues] at ih
          simpa [Text.join, escape] using ih
  | case6 c d rest hNotBoth hOther ih =>
      rw [encode] at ih ⊢
      rw [join_map_pushFront [c]
        (fun t => escape_cons_of_ne t hOther) (decode_ne_nil _), ih]
      rfl

end ValueList

------------------------------------------------------------
-- Between Commas
------------------------------------------------------------

namespace Text

/- The separator does not stand at the top level of the text. -/
def NoneAtTop
    (separator : Char)
    (t : Text) : Prop :=
  ∀ m ∈ marking t, ¬ Mark.Is separator m

theorem pieces_of_none
    {separator : Char}
    {ms : List Mark}
    (hNone : ∀ m ∈ ms, ¬ Mark.Is separator m) :
    pieces (fun m => decide (Mark.Is separator m)) ms = [ms] := by
  induction ms with
  | nil => rfl
  | cons m ms ih =>
      rw [pieces, if_neg (by simpa using hNone m List.mem_cons_self),
        ih fun m' h => hNone m' (List.mem_cons_of_mem m h)]
      rfl

/- A piece ends at the first separator. -/
theorem pieces_append_cons
    {separator : Char}
    {ms : List Mark}
    {m : Mark}
    (rest : List Mark)
    (hNone : ∀ m ∈ ms, ¬ Mark.Is separator m)
    (hCut : Mark.Is separator m) :
    pieces (fun m => decide (Mark.Is separator m)) (ms ++ m :: rest) =
      ms :: pieces (fun m => decide (Mark.Is separator m)) rest := by
  induction ms with
  | nil =>
      rw [List.nil_append, pieces, if_pos (by simpa using hCut)]
  | cons first ms ih =>
      rw [List.cons_append, pieces,
        if_neg (by simpa using hNone first List.mem_cons_self),
        ih fun m' h => hNone m' (List.mem_cons_of_mem first h)]
      rfl

/- The pieces of a text between the separators at its top. -/
def topPieces
    (separator : Char)
    (t : Text) : List Text :=
  (pieces (fun m => decide (Mark.Is separator m)) (marking t)).map
    Mark.text

theorem splitTop_eq
    {separator : Char}
    {t : Text}
    (hBalanced : Balanced t) :
    splitTop separator t = .ok (topPieces separator t) := by
  rw [splitTop, marked_eq, if_pos hBalanced]
  rfl

theorem topPieces_of_none
    {separator : Char}
    {t : Text}
    (hBalanced : Balanced t)
    (hNone : NoneAtTop separator t) :
    topPieces separator t = [t] := by
  rw [topPieces, pieces_of_none hNone, List.map_singleton,
    text_marking hBalanced]

theorem topPieces_append_cons
    {separator : Char}
    {s t : Text}
    (hPlain : ¬ IsDelimiter separator)
    (hFirst : Balanced s)
    (hNone : NoneAtTop separator s) :
    topPieces separator (s ++ separator :: t) =
      s :: topPieces separator t := by
  have hStep :
      Nesting.outside.step separator = some Nesting.outside :=
    Nesting.step_of_plain rfl hPlain
  have hTop : Mark.Is separator ⟨separator, true⟩ := ⟨rfl, rfl⟩
  have hIsTop : Nesting.outside.IsTop separator := ⟨rfl, hPlain⟩
  have hMarks :
      marking (separator :: t) = ⟨separator, true⟩ :: marking t := by
    rw [marking, Nesting.marking_cons _ hStep, decide_eq_true hIsTop]
    rfl
  rw [topPieces, marking_append _ hFirst, hMarks,
    pieces_append_cons _ hNone hTop, List.map_cons,
    text_marking hFirst]
  rfl

/-
  Texts that are joined with commas and blanks are split at
  the commas, and keep the blanks, by induction over the
  texts behind the first.
-/
theorem topPieces_join
    {first : Text}
    {rest : List Text}
    (hFirst : Balanced first ∧ NoneAtTop ',' first)
    (hRest : ∀ t ∈ rest, Balanced t ∧ NoneAtTop ',' t) :
    Balanced (join ", ".toList (first :: rest)) ∧
      topPieces ',' (join ", ".toList (first :: rest)) =
        first :: rest.map fun t => ' ' :: t := by
  induction rest generalizing first with
  | nil => exact ⟨hFirst.1, topPieces_of_none hFirst.1 hFirst.2⟩
  | cons next rest ih =>
      have hNext := hRest next List.mem_cons_self
      have hBlank : Balanced [' '] := by decide
      have hSpaced :
          Balanced (' ' :: next) ∧ NoneAtTop ',' (' ' :: next) := by
        have hMarks :
            marking (' ' :: next) = ⟨' ', true⟩ :: marking next :=
          marking_append next hBlank
        refine ⟨balanced_append hBlank hNext.1, ?_⟩
        intro m hMem
        rw [hMarks] at hMem
        rcases List.mem_cons.mp hMem with rfl | hMem
        · decide
        · exact hNext.2 m hMem
      have hJoin :
          join ", ".toList (first :: next :: rest) =
            first ++ ',' :: join ", ".toList ((' ' :: next) :: rest) := by
        cases rest with
        | nil => simp [join]
        | cons other rest => simp [join]
      rcases ih hSpaced fun t h => hRest t (List.mem_cons_of_mem _ h)
        with ⟨hBalanced, hPieces⟩
      have hComma : Balanced [','] := by decide
      rw [hJoin, topPieces_append_cons (by decide) hFirst.1 hFirst.2,
        hPieces]
      exact
        ⟨balanced_append hFirst.1 (balanced_append hComma hBalanced),
          rfl⟩

theorem noneAtTop_of_hidden
    {t : Text}
    (separator : Char)
    (hHidden : Nesting.Hidden (marking t)) :
    NoneAtTop separator t := by
  rintro m hMem ⟨hTop, -⟩
  rw [hHidden m hMem] at hTop
  exact absurd hTop (by decide)

end Text

------------------------------------------------------------
-- Lists of Strings
------------------------------------------------------------

namespace Quoted

theorem noneAtTop_quote
    (value : Text) :
    Text.Balanced (quote value) ∧ Text.NoneAtTop ',' (quote value) :=
  ⟨Text.balanced_quoted (by decide) value,
    Text.noneAtTop_of_hidden ','
      (Text.hidden_quoted (by decide) value)⟩

theorem strip_trim_blank_quote
    (value : Text) :
    strip (Text.trim (' ' :: quote value)) = value := by
  have hTrimmed : Text.IsTrimmed (quote value) :=
    Text.isTrimmed_surround _ (by decide) (by decide)
  rw [Predicate.trim_blank_cons hTrimmed, strip_quote]

end Quoted

namespace ValueList

/- The strings of some values, with commas between them. -/
def quoted
    (values : List Text) : Text :=
  Text.join ", ".toList (values.map Quoted.quote)

variable {values : List Text}

theorem topPieces_quoted
    (hSome : values ≠ []) :
    Text.Balanced (quoted values) ∧
      (Text.topPieces ',' (quoted values)).map
        (fun piece => Quoted.strip (Text.trim piece)) = values := by
  cases values with
  | nil => exact absurd rfl hSome
  | cons value rest =>
      have hRest :
          ∀ t ∈ rest.map Quoted.quote,
            Text.Balanced t ∧ Text.NoneAtTop ',' t := by
        intro t hMem
        rcases List.mem_map.mp hMem with ⟨v, -, rfl⟩
        exact Quoted.noneAtTop_quote v
      rcases
        Text.topPieces_join (Quoted.noneAtTop_quote value) hRest
        with ⟨hBalanced, hPieces⟩
      refine ⟨hBalanced, ?_⟩
      rw [quoted, List.map_cons, hPieces, List.map_cons,
        Quoted.trim_quote, Quoted.strip_quote, List.map_map,
        List.map_map]
      congr 1
      apply List.map_id''
      exact Quoted.strip_trim_blank_quote

theorem not_isBlank_quoted
    (hSome : values ≠ []) :
    ¬ Text.IsBlank (quoted values) := by
  cases values with
  | nil => exact absurd rfl hSome
  | cons value rest =>
      intro hBlank
      have hHead : isBlank '\'' = true := by
        cases rest with
        | nil => exact (Text.isBlank_cons.mp hBlank).1
        | cons next rest => exact (Text.isBlank_cons.mp hBlank).1
      exact absurd hHead (by decide)

end ValueList

/- What is written as a list is read as its values. -/
theorem Predicate.listValues_quoted
    {values : List Text}
    (predicate : Text)
    (hSome : values ≠ []) :
    listValues predicate (ValueList.quoted values) = .ok values := by
  rcases ValueList.topPieces_quoted hSome with ⟨hBalanced, hValues⟩
  rw [listValues, if_neg (ValueList.not_isBlank_quoted hSome),
    Text.splitTop_eq hBalanced]
  exact congrArg Except.ok hValues

end SqlSelect
