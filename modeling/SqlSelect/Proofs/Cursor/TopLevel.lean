import SqlSelect.Cursor.Divisions
import SqlSelect.Proofs.Cursor.Position

/-
  The walk of a cursor from one character at the top level to
  the next. A balanced text is gone over by induction on these
  characters, and whatever account is kept on the way, it is
  brought forward over each of them and closed at the end. In
  a text that is not balanced the cursor finds the fault.

  Main statements:
    * `Text.top_induction`
    * `Cursor.overTop_of_next`
    * `Cursor.overTop_of_not_balanced`
-/

namespace SqlSelect

open Text

------------------------------------------------------------
-- Texts along Their Top Level
------------------------------------------------------------

namespace Text

theorem balanced_append_cons_iff
    {passed rest : Text}
    {c : Char}
    (hPassed : Balanced passed)
    (hPlain : ¬ IsDelimiter c) :
    Balanced (passed ++ c :: rest) ↔ Balanced rest := by
  rw [balanced_append_iff hPassed, Balanced, Nesting.run_cons,
    Nesting.step_of_plain rfl hPlain]
  exact Iff.rfl

/-
  A balanced text is some text with nothing at the top level,
  and behind it either the end or a character at the top level
  and a balanced text. By induction on the length of the text.
-/
theorem top_induction
    {motive : (t : Text) → Balanced t → Prop}
    (last :
      ∀ passed (hPassed : Balanced passed),
        Nesting.outside.Passes (fun _ => true) passed →
          motive passed hPassed)
    (next :
      ∀ passed c rest (hPassed : Balanced passed)
        (hPlain : ¬ IsDelimiter c) (hRest : Balanced rest),
        Nesting.outside.Passes (fun _ => true) passed →
          motive rest hRest →
            motive (passed ++ c :: rest)
              ((balanced_append_cons_iff hPassed hPlain).mpr hRest))
    (t : Text)
    (hBalanced : Balanced t) :
    motive t hBalanced := by
  induction hLength : t.length using Nat.strong_induction_on
    generalizing t with
  | _ length ih =>
      rcases Stop.exists_passes (fun _ => true) hBalanced
        with ⟨passed, behind, rfl, hPassed, hPasses, hHalts⟩
      rcases hHalts with rfl | ⟨c, rest, rfl, hPlain, -⟩
      · simpa using last passed hPassed hPasses
      · have hRest :=
          (balanced_append_cons_iff hPassed hPlain).mp hBalanced
        refine
          next passed c rest hPassed hPlain hRest hPasses
            (ih rest.length ?_ rest hRest rfl)
        rw [← hLength, List.length_append, List.length_cons]
        omega

/- What a walk to any character passes has none at the top level. -/
theorem hidden_of_passes
    {t : Text}
    (hPasses : Nesting.outside.Passes (fun _ => true) t) :
    Nesting.Hidden (marking t) := by
  intro m hMem
  rw [← Bool.not_eq_true]
  exact fun hTop => Bool.noConfusion (hPasses m hMem hTop)

/- The marks of such a text, a character and the rest. -/
theorem marking_append_cons
    {passed : Text}
    {c : Char}
    (rest : Text)
    (hPassed : Balanced passed)
    (hPlain : ¬ IsDelimiter c) :
    marking (passed ++ c :: rest) =
      marking passed ++ ⟨c, true⟩ :: marking rest := by
  have hTop : Nesting.outside.IsTop c := ⟨rfl, hPlain⟩
  rw [marking_append _ hPassed, marking, marking,
    Nesting.marking_cons _ (Nesting.step_of_plain rfl hPlain),
    decide_eq_true hTop, marking]

end Text

------------------------------------------------------------
-- Accounts of the Walk
------------------------------------------------------------

namespace Cursor

variable {t front passed rest : Text}
variable {c : Char}

/- The steps to the next character and to the end of a text. -/
theorem nextTop_of_passes
    (front rest : Text)
    (hBalanced : Text.Balanced passed)
    (hPasses : Nesting.outside.Passes (fun _ => true) passed)
    (hPlain : ¬ IsDelimiter c) :
    (Cursor.mk (front ++ (passed ++ c :: rest)) (passed ++ c :: rest)
        0).nextTop =
      (.ok (some (byteSize (front ++ passed), c)),
        ⟨front ++ (passed ++ c :: rest), rest, 0⟩) := by
  have hStop :=
    Stop.atTop_of_passes hBalanced hPasses
      (Or.inr ⟨c, rest, rfl, hPlain, rfl⟩)
  simp only [nextTop, hStop, moveTo, if_true, advance, next?,
    List.head?_cons, Option.map_some, List.tail_cons, position]
  rw [← List.append_assoc, byteSize_append (front ++ passed),
    Nat.add_sub_cancel]

theorem nextTop_of_end
    (hBalanced : Text.Balanced passed)
    (hPasses : Nesting.outside.Passes (fun _ => true) passed) :
    (Cursor.mk t passed 0).nextTop = (.ok none, ⟨t, [], 0⟩) := by
  have hStop :=
    Stop.atTop_of_passes hBalanced hPasses (t := []) (Or.inl rfl)
  rw [List.append_nil] at hStop
  simp only [nextTop, hStop, moveTo, if_true, advance, next?]
  rfl

section OverTop

variable {α β : Type}
variable {take : α → Cursor → Cursor → Nat × Char → α}
variable {close : α → Cursor → Cursor → β}
variable {account : α}

/- One step of the walk, and the rest of it. -/
theorem overTop_step
    (s : Cursor) :
    overTop take close account s =
      match s.nextTop with
      | (.error e, _) => .error e
      | (.ok none, after) => .ok (close account s after)
      | (.ok (some next), after) =>
          overTop take close (take account s after next) after := by
  rw [overTop]
  split
  · rename_i hNext
    rw [hNext]
  · rename_i hNext
    rw [hNext]
  · rename_i hNext
    rw [hNext]

/- At the end of the text the account is closed. -/
theorem overTop_of_end
    (front : Text)
    (hPassed : Text.Balanced passed)
    (hPasses : Nesting.outside.Passes (fun _ => true) passed) :
    overTop take close account ⟨front ++ passed, passed, 0⟩ =
      .ok
        (close account ⟨front ++ passed, passed, 0⟩
          ⟨front ++ passed, [], 0⟩) := by
  rw [overTop_step, nextTop_of_end hPassed hPasses]

/- Over a character the account is brought forward. -/
theorem overTop_of_next
    (front rest : Text)
    (hPassed : Text.Balanced passed)
    (hPasses : Nesting.outside.Passes (fun _ => true) passed)
    (hPlain : ¬ IsDelimiter c) :
    overTop take close account
        ⟨front ++ (passed ++ c :: rest), passed ++ c :: rest, 0⟩ =
      overTop take close
        (take account
          ⟨front ++ (passed ++ c :: rest), passed ++ c :: rest, 0⟩
          ⟨front ++ (passed ++ c :: rest), rest, 0⟩
          (byteSize (front ++ passed), c))
        ⟨front ++ (passed ++ c :: rest), rest, 0⟩ := by
  rw [overTop_step, nextTop_of_passes _ _ hPassed hPasses hPlain]

/-
  In front of a text that is not balanced the walk fails, by
  induction on the length of the text.
-/
theorem overTop_of_not_balanced
    (front : Text)
    (hNot : ¬ Text.Balanced rest) :
    overTop take close account ⟨front ++ rest, rest, 0⟩ =
      .error (.unbalanced (front ++ rest)) := by
  induction hLength : rest.length using Nat.strong_induction_on
    generalizing rest front account with
  | _ length ih =>
      rcases
          Stop.exists_run_atTop (fun _ => true) Nesting.outside rest
        with ⟨passed, m, hText, hRun, hPasses, -, hReached⟩
      cases hThere :
          (Stop.atTop (fun _ => true) none 0 rest).reached with
      | false =>
          rw [overTop_step]
          simp [nextTop, moveTo, hThere, unbalanced]
      | true =>
          rcases hReached hThere with
            ⟨rfl, hEnd | ⟨c, behind, hNext, hPlain, -⟩⟩
          · rw [hEnd, List.append_nil] at hText
            rw [hText] at hNot
            exact absurd hRun hNot
          · rw [hNext] at hText
            subst hText
            rw [balanced_append_cons_iff hRun hPlain] at hNot
            have hSplit :
                front ++ (passed ++ c :: behind) =
                  (front ++ passed ++ [c]) ++ behind := by
              simp
            rw [overTop_of_next _ _ hRun hPasses hPlain, hSplit]
            refine ih behind.length ?_ _ hNot rfl
            rw [← hLength, List.length_append, List.length_cons]
            omega

end OverTop

end Cursor

end SqlSelect
