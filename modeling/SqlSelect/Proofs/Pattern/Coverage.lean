import SqlSelect.Pattern
import SqlSelect.Proofs.Pattern.Engine

/-
  What a pattern covers. Whatever engine reads the expression
  of a pattern, the pattern covers the values that can be
  divided among its characters: a percent sign takes any run
  of characters, an underscore takes one, and every other
  character takes itself.

  Main statements:
    * `Pattern.Takes`
    * `Pattern.writeFrom_eq`
    * `Pattern.isDivided_pieces_iff`
    * `Pattern.covers_iff_divided`
-/

namespace SqlSelect

namespace Pattern

/- The character of a pattern takes the run of a value. -/
def Takes
    (p : Char)
    (s : Text) : Prop :=
  if p = '%' then True
  else if p = '_' then s.length = 1
  else s = [p]

------------------------------------------------------------
-- The Expression of a Pattern
------------------------------------------------------------

/-
  The pieces that the expression of a pattern is written from.
  The characters between two wildcards are one piece, which is
  empty where there are none.
-/
def pieces
    (literal : Text) : Text → List Regex.Piece
  | [] => [.exact literal]
  | c :: rest =>
      if c = '%' then .exact literal :: .run :: pieces [] rest
      else if c = '_' then .exact literal :: .one :: pieces [] rest
      else pieces (literal ++ [c]) rest

variable {value : Text}

/-
  The expression is written piece by piece, by induction on
  what is left of the pattern.
-/
theorem writeFrom_eq
    (escape : Text → Text)
    (done literal t : Text) :
    writeFrom escape done literal t =
      done ++ (pieces literal t).flatMap (Regex.Piece.written escape) ++
        Regex.closing := by
  induction t generalizing done literal with
  | nil => simp [writeFrom, pieces, Regex.Piece.written]
  | cons c t ih =>
      by_cases hRun : c = '%'
      · subst hRun
        rw [writeFrom, if_pos (.inl rfl), ih, pieces, if_pos rfl]
        simp [Regex.Piece.written, wildcard]
      · by_cases hOne : c = '_'
        · subst hOne
          rw [writeFrom, if_pos (.inr rfl), ih, pieces, if_neg hRun,
            if_pos rfl]
          simp [Regex.Piece.written, wildcard]
        · rw [writeFrom, if_neg (not_or.mpr ⟨hRun, hOne⟩), ih, pieces,
            if_neg hRun, if_neg hOne]

theorem expressionText_eq
    (escape : Text → Text)
    (t : Text) :
    expressionText escape t = Regex.written escape (pieces [] t) :=
  writeFrom_eq escape Regex.opening [] t

------------------------------------------------------------
-- Pieces and Characters
------------------------------------------------------------

/- A piece that is gathered in front covers itself. -/
theorem isDivided_exact_cons_iff
    {literal : Text}
    {rest : List Regex.Piece} :
    Text.IsDivided Regex.Piece.Covers (.exact literal :: rest) value ↔
      ∃ behind,
        value = literal ++ behind ∧
          Text.IsDivided Regex.Piece.Covers rest behind := by
  rw [Text.isDivided_cons_iff]
  constructor
  · rintro ⟨run, behind, rfl, rfl, hRest⟩
    exact ⟨behind, rfl, hRest⟩
  · rintro ⟨behind, rfl, hRest⟩
    exact ⟨literal, behind, rfl, rfl, hRest⟩

/-
  The pieces divide what the characters of the pattern do
  behind those that are gathered. By induction on the pattern,
  for whatever has been gathered.
-/
theorem isDivided_pieces_iff
    (literal t : Text) :
    Text.IsDivided Regex.Piece.Covers (pieces literal t) value ↔
      ∃ behind,
        value = literal ++ behind ∧ Text.IsDivided Takes t behind := by
  induction t generalizing literal value with
  | nil =>
      rw [pieces, isDivided_exact_cons_iff]
      simp only [Text.isDivided_nil_iff]
  | cons c t ih =>
      have hNone
          (v : Text) :
          Text.IsDivided Regex.Piece.Covers (pieces [] t) v ↔
            Text.IsDivided Takes t v := by
        simp [ih]
      by_cases hRun : c = '%'
      · subst hRun
        rw [pieces, if_pos rfl, isDivided_exact_cons_iff]
        simp only [Text.isDivided_cons_iff, hNone, Regex.Piece.Covers,
          Takes, if_true]
      · by_cases hOne : c = '_'
        · subst hOne
          rw [pieces, if_neg hRun, if_pos rfl, isDivided_exact_cons_iff]
          simp only [Text.isDivided_cons_iff, hNone, Regex.Piece.Covers,
            Takes, if_neg hRun, if_true]
        · rw [pieces, if_neg hRun, if_neg hOne, ih]
          simp only [Text.isDivided_cons_iff, Takes, if_neg hRun,
            if_neg hOne]
          constructor
          · rintro ⟨behind, rfl, hRest⟩
            exact
              ⟨c :: behind, List.append_assoc .., [c], behind, rfl, rfl,
                hRest⟩
          · rintro ⟨_, rfl, _, behind, rfl, rfl, hRest⟩
            exact ⟨behind, (List.append_assoc ..).symm, hRest⟩

------------------------------------------------------------
-- Compiled Patterns
------------------------------------------------------------

variable {ρ : Type}
variable {engine : Regex.Engine ρ}
variable {Fits : Text → Prop}

/- A lawful engine compiles a pattern that is not too large. -/
theorem exists_compile
    (hLawful : engine.Lawful Fits)
    {t : Text}
    (hFits : Fits (expressionText engine.escape t)) :
    ∃ pattern,
      compile engine (some t) = .ok pattern ∧ pattern.text = t ∧
        ∀ value,
          engine.covers pattern.expression value = true ↔
            Text.IsDivided Takes t value := by
  rw [expressionText_eq] at hFits
  have hReads := hLawful.reads (pieces [] t) hFits
  rcases Option.isSome_iff_exists.mp hReads with ⟨expression, hRead⟩
  refine ⟨⟨t, expression⟩, ?_, rfl, fun value => ?_⟩
  · rw [compile, expressionText_eq, hRead]
  · rw [hLawful.covers_iff _ _ value hRead, isDivided_pieces_iff]
    simp

/-
  A pattern covers a value exactly if the value can be divided
  among the characters of the pattern, with any engine that is
  lawful, and with the one of this library.
-/
theorem covers_iff_divided
    (hLawful : engine.Lawful Fits)
    {t : Text}
    (hFits : Fits (expressionText engine.escape t)) :
    (∃ pattern,
      compile engine (some t) = .ok pattern ∧ pattern.text = t ∧
        ∀ value,
          engine.covers pattern.expression value = true ↔
            Text.IsDivided Takes t value) ∧
      ∃ pattern,
        ofText? (some t) = .ok pattern ∧ pattern.text = t ∧
          ∀ value,
            pattern.covers value = true ↔
              Text.IsDivided Takes t value :=
  ⟨exists_compile hLawful hFits,
    exists_compile Regex.lawful_engine trivial⟩

/- A point stands for itself, and an underscore for a line break. -/
theorem covers_iff_divided_lines :
    Regex.engine.Lawful (fun _ => True) ∧
      ∃ pattern,
        compile Regex.engine (some "1.5 (x)%_$".toList) = .ok pattern ∧
          pattern.covers "1.5 (x) of_\n$".toList = true ∧
          pattern.covers "1x5 (x) of_\n$".toList = false := by
  refine ⟨Regex.lawful_engine, ?_⟩
  rcases
    (covers_iff_divided Regex.lawful_engine
        (t := "1.5 (x)%_$".toList) trivial).1
    with ⟨pattern, hCompile, -, hCovers⟩
  refine ⟨pattern, hCompile, ?_, ?_⟩
  · refine
      (hCovers _).mpr
        ⟨["1".toList, ".".toList, "5".toList, " ".toList, "(".toList,
            "x".toList, ")".toList, " of_".toList, "\n".toList,
            "$".toList],
          ?_, rfl⟩
    repeat' constructor
  · have hExpression :
        compile Regex.engine (some "1.5 (x)%_$".toList) =
          .ok
            ⟨"1.5 (x)%_$".toList,
              ⟨[.same '1', .same '.', .same '5', .same ' ', .same '(',
                .same 'x', .same ')', .run, .one, .same '$']⟩⟩ := by
      decide +kernel
    rw [hExpression] at hCompile
    cases hCompile
    decide

end Pattern

end SqlSelect
