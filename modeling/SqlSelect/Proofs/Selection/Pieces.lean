import SqlSelect.Proofs.Selection.Items

/-
  Pieces of a text between separators. A balanced text is some
  pieces with separators between them, each of them balanced
  and without a separator at its top level, and pieces that
  are joined with separators are what it is split into.

  Main statements:
    * `Text.IsPiece`
    * `Text.splitTop_join`
    * `Text.exists_join`
-/

namespace SqlSelect

namespace Text

variable {separator : Char}
variable {s t : Text}
variable {parts : List Text}

/- The text is one piece, without the separator at its top. -/
structure IsPiece
    (separator : Char)
    (t : Text) : Prop where
  balanced : Balanced t
  none : NoneAtTop separator t

instance
    (separator : Char)
    (t : Text) :
    Decidable (NoneAtTop separator t) := by
  unfold NoneAtTop
  infer_instance

instance
    (separator : Char)
    (t : Text) :
    Decidable (IsPiece separator t) :=
  decidable_of_iff (Balanced t ∧ NoneAtTop separator t)
    ⟨fun h => ⟨h.1, h.2⟩, fun h => ⟨h.balanced, h.none⟩⟩

theorem IsPiece.append
    (hFirst : IsPiece separator s)
    (hSecond : IsPiece separator t) :
    IsPiece separator (s ++ t) :=
  ⟨balanced_append hFirst.balanced hSecond.balanced,
    noneAtTop_append hFirst.balanced hFirst.none hSecond.none⟩

/- The first of some joined texts, and what comes behind it. -/
theorem exists_join_cons
    (separator first : Text)
    (rest : List Text) :
    ∃ behind,
      join separator (first :: rest) = first ++ behind ∧
        (behind = [] ∨ ∃ u, behind = separator ++ u) := by
  cases rest with
  | nil => exact ⟨[], (List.append_nil first).symm, Or.inl rfl⟩
  | cons next rest =>
      exact
        ⟨separator ++ join separator (next :: rest),
          List.append_assoc .., Or.inr ⟨_, rfl⟩⟩

/- Joined texts end like the last of them. -/
theorem getLast?_join
    (separator : Text)
    (hSome : ∀ part ∈ parts, part ≠ [])
    (hNotNil : parts ≠ []) :
    (join separator parts).getLast? =
      (parts.getLast hNotNil).getLast? := by
  induction parts with
  | nil => exact absurd rfl hNotNil
  | cons first rest ih =>
      cases rest with
      | nil => rfl
      | cons next rest =>
          have hRest := fun part hMem =>
            hSome part (List.mem_cons_of_mem first hMem)
          have hLast := ih hRest (List.cons_ne_nil next rest)
          have hJoined : join separator (next :: rest) ≠ [] := by
            intro hNil
            rw [hNil, List.getLast?_nil, eq_comm,
              List.getLast?_eq_none_iff] at hLast
            exact hRest _ (List.getLast_mem _) hLast
          rw [join, List.getLast?_append_of_ne_nil _ hJoined, hLast]
          rfl

/- Joined pieces are split into these pieces. -/
theorem splitTop_join
    (hPlain : ¬ IsDelimiter separator)
    (hNotNil : parts ≠ [])
    (hPieces : ∀ part ∈ parts, IsPiece separator part) :
    splitTop separator (join [separator] parts) = .ok parts := by
  have hBoth :
      Balanced (join [separator] parts) ∧
        topPieces separator (join [separator] parts) = parts := by
    induction parts with
    | nil => exact absurd rfl hNotNil
    | cons first rest ih =>
        have hFirst := hPieces first List.mem_cons_self
        cases rest with
        | nil =>
            exact
              ⟨hFirst.balanced,
                topPieces_of_none hFirst.balanced hFirst.none⟩
        | cons next rest =>
            have hRest := ih (List.cons_ne_nil next rest) fun part hMem =>
              hPieces part (List.mem_cons_of_mem first hMem)
            have hSeparator : Balanced [separator] :=
              balanced_of_plain fun c hMem =>
                List.mem_singleton.mp hMem ▸ hPlain
            rw [join, List.append_assoc, List.singleton_append]
            refine ⟨?_, ?_⟩
            · exact
                balanced_append hFirst.balanced
                  (balanced_append hSeparator hRest.1)
            · rw [topPieces_append_cons hPlain hFirst.balanced
                hFirst.none, hRest.2]
  rw [splitTop_eq hBoth.1, hBoth.2]

/-
  What a walk goes over are pieces with separators between
  them, the first of which begins where the walk does. By
  induction on the text.
-/
theorem exists_join_of_run
    {n : Nesting}
    (separator : Char)
    (hRun : n.run t = some Nesting.outside) :
    ∃ first rest,
      t = join [separator] (first :: rest) ∧
        n.run first = some Nesting.outside ∧
        (∀ m ∈ n.marking first, ¬ Mark.Is separator m) ∧
        ∀ part ∈ rest, IsPiece separator part := by
  induction t generalizing n with
  | nil => exact ⟨[], [], rfl, hRun, nofun, nofun⟩
  | cons c t ih =>
      rcases Nesting.exists_step_of_run hRun with ⟨next, hStep, hRest⟩
      rcases ih hRest with ⟨first, rest, hText, hFirst, hNone, hPieces⟩
      by_cases hIs : Mark.Is separator ⟨c, decide (n.IsTop c)⟩
      · -- A piece ends in front of a separator at the top.
        have hTop : n.IsTop c := of_decide_eq_true hIs.1
        have hChar : c = separator := hIs.2
        rcases hTop with ⟨rfl, hPlain⟩
        rw [Nesting.step_of_plain rfl hPlain] at hStep
        cases hStep
        refine ⟨[], first :: rest, ?_, rfl, nofun, ?_⟩
        · rw [hText, hChar]
          rfl
        · intro part hMem
          rcases List.mem_cons.mp hMem with rfl | hMem
          · exact ⟨hFirst, hNone⟩
          · exact hPieces part hMem
      · refine ⟨c :: first, rest, ?_, ?_, ?_, hPieces⟩
        · rw [hText]
          cases rest <;> rfl
        · rw [Nesting.run_cons, hStep]
          exact hFirst
        · rw [Nesting.marking_cons _ hStep]
          intro m hMem
          rcases List.mem_cons.mp hMem with rfl | hMem
          · exact hIs
          · exact hNone m hMem

/- A balanced text is some pieces with separators between them. -/
theorem exists_join
    (separator : Char)
    (hBalanced : Balanced t) :
    ∃ parts,
      t = join [separator] parts ∧
        ∀ part ∈ parts, IsPiece separator part := by
  rcases exists_join_of_run separator hBalanced with
    ⟨first, rest, hText, hFirst, hNone, hPieces⟩
  refine ⟨first :: rest, hText, ?_⟩
  intro part hMem
  rcases List.mem_cons.mp hMem with rfl | hMem
  · exact ⟨hFirst, hNone⟩
  · exact hPieces part hMem

end Text

end SqlSelect
