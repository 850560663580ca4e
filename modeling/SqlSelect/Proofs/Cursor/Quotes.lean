import SqlSelect.Cursor.Turns
import SqlSelect.Proofs.Balance.Pass
import SqlSelect.Proofs.Cursor.Walk
import SqlSelect.Proofs.Text.Quoting

/-
  A quoted section taken whole. A cursor in front of a quote
  moves to the end of the section that the quote opens, over
  the doubled quotes inside. The walks of a cursor get over a
  section in the same way, and the texts that are one section
  between single quotes are the string literals.

  Main statements:
    * `Stop.atTop_section`
    * `Stop.afterGroup_section`
    * `Quoted.double_of_unescape?`
    * `Quoted.afterSection_eq_iff`
    * `Quoted.unquote?_eq_some_iff`
-/

namespace SqlSelect

------------------------------------------------------------
-- Sections
------------------------------------------------------------

namespace Stop

/-
  A walk that goes on as a section tells it to: from its end
  if it has one, or not at all.
-/
def andThen
    (stop : Stop)
    (go : Text → Stop) : Stop :=
  if stop.reached then go stop.rest else stop

variable {q : Char}

/-
  What the walks to the top level and through a group have in
  common: inside of a section they look for its end only, and
  they enter it again behind it when the quote comes twice.
-/
theorem section_eq
    (walk : Option Char → Text → Stop)
    {depth : Nat}
    (hEnd : walk (some q) [] = ⟨false, depth, []⟩)
    (hInside :
      ∀ c t,
        walk (some q) (c :: t) =
          walk (if c = q then none else some q) t)
    (hAgain :
      q ≠ ']' → ∀ t, walk none (q :: t) = walk (some q) t)
    (t : Text) :
    walk (some q) t =
      (afterSection q depth t).andThen (walk none) := by
  fun_induction afterSection q depth t with
  | case1 => simp [andThen, hEnd]
  | case2 c =>
      by_cases hClose : c = q
      · simp [andThen, hInside, hClose]
      · simp [andThen, hInside, hClose, hEnd]
  | case3 d rest hDoubled ih =>
      -- Out of the section and into it again.
      rw [hInside, if_pos rfl, hDoubled.2,
        hAgain hDoubled.1, ih]
  | case4 d rest hSingle =>
      simp [andThen, hInside]
  | case5 c d rest hOther ih =>
      rw [hInside, if_neg hOther, ih]

/- A walk to the top level takes a section whole. -/
theorem atTop_section
    (halt : Char → Bool)
    (hSection : Nesting.InSection (some q))
    (depth : Nat)
    (t : Text) :
    atTop halt (some q) depth t =
      (afterSection q depth t).andThen
        (atTop halt none depth) := by
  apply section_eq fun closer => atTop halt closer depth
  · simp [atTop]
  · intro c t
    simp [atTop]
  · intro hQuote t
    have hOpens := (hSection q rfl).resolve_left hQuote
    simp [atTop_none_cons, hOpens]

/- A walk through a group takes a section whole. -/
theorem afterGroup_section
    (hSection : Nesting.InSection (some q))
    (depth : Nat)
    (t : Text) :
    afterGroup (some q) depth t =
      (afterSection q depth t).andThen
        (afterGroup none depth) := by
  apply section_eq fun closer => afterGroup closer depth
  · simp [afterGroup]
  · intro c t
    simp [afterGroup]
  · intro hQuote t
    have hOpens := (hSection q rfl).resolve_left hQuote
    simp [afterGroup, hOpens]

end Stop

namespace Cursor

/- The section is taken, and there is nothing behind it. -/
theorem passSection_eq_iff
    {q : Char}
    {s : Cursor} :
    s.passSection q = (.ok (), { s with rest := [] }) ↔
      Stop.afterSection q s.depth s.rest.tail =
        ⟨true, s.depth, []⟩ := by
  cases hStop : Stop.afterSection q s.depth s.rest.tail with
  | mk reached depth rest =>
      cases reached <;>
        simp [passSection, moveTo, advance, hStop, and_comm]

end Cursor

------------------------------------------------------------
-- String Literals
------------------------------------------------------------

namespace Quoted

/- What is written once was written twice. -/
theorem double_of_unescape?
    {t value : Text}
    (hRead : unescape? t = some value) :
    Text.double '\'' value = t := by
  fun_induction unescape? t generalizing value with
  | case1 =>
      cases hRead
      rfl
  | case2 => cases hRead
  | case3 c hOther =>
      cases hRead
      simp [Text.double, hOther]
  | case4 rest ih =>
      rcases Option.map_eq_some_iff.mp hRead
        with ⟨value, hRest, rfl⟩
      simp [Text.double, ih hRest]
  | case5 => cases hRead
  | case6 c d rest hOther ih =>
      rcases Option.map_eq_some_iff.mp hRead
        with ⟨value, hRest, rfl⟩
      simp [Text.double, hOther, ih hRest]

/-
  In front of a closing quote the pairs are read back exactly
  where a section takes everything up to that quote.
-/
theorem afterSection_eq_iff
    (depth : Nat)
    (t : Text) :
    Stop.afterSection '\'' depth (t ++ ['\'']) =
        ⟨true, depth, []⟩ ↔
      (unescape? t).isSome = true := by
  fun_induction unescape? t with
  | case1 => simp [Stop.afterSection]
  | case2 => simp [Stop.afterSection]
  | case3 c hOther => simp [Stop.afterSection, hOther]
  | case4 rest ih => simpa [Stop.afterSection] using ih
  | case5 d rest hSingle => simp [Stop.afterSection, hSingle]
  | case6 c d rest hOther ih =>
      simpa [Stop.afterSection, hOther] using ih

/-
  A string literal is the one way to write its value, and the
  string literals are the texts that begin and end with a
  single quote and are one section.
-/
theorem unquote?_eq_some_iff
    (t value : Text) :
    (unquote? t = some value ↔ quote value = t) ∧
      ((unquote? t).isSome = true ↔
        IsEnclosed t ∧
          (Cursor.ofText t).passSection '\'' =
            (.ok (), ⟨t, [], 0⟩)) := by
  constructor
  · constructor
    · intro hRead
      rw [unquote?, Option.ite_none_right_eq_some] at hRead
      rcases hRead with ⟨⟨hSize, hFirst, hLast⟩, hInner⟩
      rw [quote, double_of_unescape? hInner]
      exact (Text.eq_surround hSize hFirst hLast).symm
    · rintro rfl
      exact unquote?_quote value
  · by_cases hEnclosed : IsEnclosed t
    · have hText :
          t.tail = Text.inner t ++ ['\''] :=
        congrArg List.tail
          (Text.eq_surround hEnclosed.1 hEnclosed.2.1
            hEnclosed.2.2)
      have hSection :=
        Cursor.passSection_eq_iff
          (q := '\'') (s := Cursor.ofText t)
      simp only [Cursor.ofText] at hSection
      rw [hText, afterSection_eq_iff] at hSection
      simp [unquote?, hEnclosed, Cursor.ofText, hSection]
    · simp [unquote?, hEnclosed]

end Quoted

end SqlSelect
