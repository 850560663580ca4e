import SqlSelect.Proofs.Recall.Predicates
import SqlSelect.Proofs.Recall.Trees

/-
  Conditions in writing. What is read back from the text of a
  condition is the same condition, exactly if every predicate
  of it is recalled.

  Main statements:
    * `Condition.readNested_ofRows`
    * `Condition.within_written`
    * `Condition.recalled_of_within`
    * `Condition.same_ofText_written_iff`
-/

namespace SqlSelect

namespace Condition

------------------------------------------------------------
-- Texts with NOT
------------------------------------------------------------

variable {s t : Text}

theorem withNot_true
    (t : Text) :
    withNot true t = "NOT".toList ++ ' ' :: t := rfl

theorem bare_withNot
    (negated : Bool)
    (hText : ¬ Text.IsBlank t) :
    bare (withNot negated t) = (negated ^^ (bare t).1, (bare t).2) := by
  cases negated with
  | false => simp [withNot]
  | true =>
      have hBare :=
        bare_not (b := [' ']) (Text.sameWord_refl "NOT".toList)
          (by decide) (by decide) hText
      rw [Bool.true_xor]
      exact hBare

theorem not_isBlank_withNot
    (negated : Bool)
    (hText : ¬ Text.IsBlank t) :
    ¬ Text.IsBlank (withNot negated t) := by
  cases negated with
  | false => exact hText
  | true =>
      intro hBlank
      exact hText (Text.isBlank_append.mp hBlank).2

theorem balanced_withNot
    (negated : Bool)
    (hBalanced : Text.Balanced t) :
    Text.Balanced (withNot negated t) := by
  cases negated with
  | false => exact hBalanced
  | true =>
      exact
        Text.balanced_append (by decide : Text.Balanced "NOT ".toList)
          hBalanced

theorem isPart_withNot_iff
    (negated : Bool)
    (hBalanced : Text.Balanced t) :
    IsPart (withNot negated t) ↔ IsPart t := by
  cases negated with
  | false => rfl
  | true =>
      have hNot : IsPart "NOT".toList :=
        isPart_of_word
          (Text.isNameChar_of_isLetters isLetters_not)
          (by decide) (by decide)
      rw [withNot_true,
        isPart_append_iff hNot.balanced
          (Text.balanced_blank_cons hBalanced)
          (fun _ => Text.seam_of_blank _ t (by decide)),
        and_iff_right hNot, isPart_cons_blank_iff hBalanced]

------------------------------------------------------------
-- Texts That Are Joined
------------------------------------------------------------

theorem isJoint_and :
    Text.IsJoint "AND".toList (joint .and) :=
  ⟨[' '], "AND".toList, [' '], rfl, by decide, by decide,
    Text.sameWord_refl _⟩

theorem isJoint_or :
    Text.IsJoint "OR".toList (joint .or) :=
  ⟨[' '], "OR".toList, [' '], rfl, by decide, by decide,
    Text.sameWord_refl _⟩

theorem balanced_joint
    (connective : Connective) :
    Text.Balanced (joint connective) := by
  cases connective <;> decide

variable {separator : Text}
variable {ts : List Text}

theorem balanced_join
    (hSeparator : Text.Balanced separator)
    (hBalanced : ∀ t ∈ ts, Text.Balanced t) :
    Text.Balanced (Text.join separator ts) := by
  induction ts with
  | nil => exact (by decide : Text.Balanced [])
  | cons t ts ih =>
      have hRest := ih fun s h =>
        hBalanced s (List.mem_cons_of_mem t h)
      have hFirst := hBalanced t List.mem_cons_self
      cases ts with
      | nil => exact hFirst
      | cons next ts =>
          exact
            Text.balanced_append
              (Text.balanced_append hFirst hSeparator) hRest

/- What is split at a separator is split in texts that it joins. -/
theorem flatMap_join
    {β : Type}
    {f : Text → List β}
    (hSeparator : Text.Balanced separator)
    (hJoin :
      ∀ s t, Text.Balanced s → Text.Balanced t →
        f (s ++ (separator ++ t)) = f s ++ f t)
    (hSome : ts ≠ [])
    (hBalanced : ∀ t ∈ ts, Text.Balanced t) :
    f (Text.join separator ts) = ts.flatMap f := by
  induction ts with
  | nil => exact absurd rfl hSome
  | cons t ts ih =>
      cases ts with
      | nil => simp [Text.join]
      | cons next ts =>
          have hTail : ∀ s ∈ next :: ts, Text.Balanced s :=
            fun s h => hBalanced s (List.mem_cons_of_mem t h)
          rw [Text.join, List.append_assoc,
            hJoin t _ (hBalanced t List.mem_cons_self)
              (balanced_join hSeparator hTail),
            ih (List.cons_ne_nil _ _) hTail, ← List.flatMap_cons]

/- Parts with AND between them are one row. -/
theorem layout_join_and
    (hSome : ts ≠ [])
    (hParts : ∀ t ∈ ts, IsPart t) :
    layout (Text.join (joint .and) ts) = [ts.map Text.trim] := by
  induction ts with
  | nil => exact absurd rfl hSome
  | cons t ts ih =>
      have hFirst := hParts t List.mem_cons_self
      cases ts with
      | nil => exact layout_of_isPart hFirst
      | cons next ts =>
          have hTail : ∀ s ∈ next :: ts, IsPart s :=
            fun s h => hParts s (List.mem_cons_of_mem t h)
          have hBalanced :=
            balanced_join (balanced_joint .and)
              fun s h => (hTail s h).balanced
          rw [Text.join, List.append_assoc,
            layout_and isJoint_and hFirst.balanced hBalanced,
            layout_of_isPart hFirst,
            ih (List.cons_ne_nil _ _) hTail]
          rfl

/- The parts of a text, from left to right. -/
def parts
    (t : Text) : List Text :=
  (layout t).flatten

theorem parts_ne_nil
    (t : Text) :
    parts t ≠ [] := by
  rcases layout_ne_nil t with ⟨hSome, hRows⟩
  rcases List.exists_mem_of_ne_nil _ hSome with ⟨r, hRow⟩
  rcases List.exists_mem_of_ne_nil r (hRows r hRow)
    with ⟨part, hPart⟩
  exact List.ne_nil_of_mem (List.mem_flatten_of_mem hRow hPart)

/- A text of one part is the part. -/
theorem isPart_of_parts
    {part : Text}
    (hBalanced : Text.Balanced t)
    (hParts : parts t = [part]) :
    IsPart t ∧ part = Text.trim t := by
  rcases layout_ne_nil t with ⟨hSome, hRows⟩
  rw [parts] at hParts
  cases hLayout : layout t with
  | nil => exact absurd hLayout hSome
  | cons r rows =>
      rw [hLayout] at hParts hRows
      rw [List.flatten_cons, List.append_eq_singleton_iff] at hParts
      rcases hParts with ⟨rfl, -⟩ | ⟨rfl, hRest⟩
      · exact absurd rfl (hRows [] List.mem_cons_self)
      · cases rows with
        | nil => exact isPart_of_layout hBalanced hLayout
        | cons r' rows =>
            have hNil := (List.append_eq_nil_iff.mp hRest).1
            exact absurd hNil (hRows r' (by simp))

theorem flatten_glue
    {α : Type}
    (rows rows' : List (List α)) :
    (glue (fun r r' => r ++ r') rows rows').flatten =
      rows.flatten ++ rows'.flatten := by
  fun_induction glue (fun r r' => r ++ r') rows rows' with
  | case1 => rfl
  | case2 => simp
  | case3 => simp
  | case4 r r' rows rows' ih => simp [ih]

theorem parts_and
    (hFirst : Text.Balanced s)
    (hSecond : Text.Balanced t) :
    parts (s ++ (joint .and ++ t)) = parts s ++ parts t := by
  rw [parts, layout_and isJoint_and hFirst hSecond, flatten_glue]
  rfl

theorem parts_or
    (hFirst : Text.Balanced s)
    (hSecond : Text.Balanced t) :
    parts (s ++ (joint .or ++ t)) = parts s ++ parts t := by
  rw [parts, layout_or isJoint_or hFirst hSecond,
    List.flatten_append]
  rfl

------------------------------------------------------------
-- Trees in Parts
------------------------------------------------------------

variable {rows : List (List Condition)}

theorem balanced_row
    {row : List Condition}
    (hUnits : ∀ u ∈ row, Text.Balanced u.written) :
    Text.Balanced (Text.join (joint .and) (row.map written)) :=
  balanced_join (balanced_joint .and) (List.forall_mem_map.mpr hUnits)

theorem balanced_ofRows
    (hUnits :
      ∀ row ∈ rows, ∀ u ∈ row, Text.Balanced u.written) :
    Text.Balanced (ofRows rows).written := by
  rw [written_ofRows]
  refine balanced_join (balanced_joint .or) ?_
  exact
    List.forall_mem_map.mpr fun row hRow =>
      balanced_row (hUnits row hRow)

/- What is split at OR is split in the rows of a tree. -/
theorem flatMap_ofRows
    {β : Type}
    {f : Text → List β}
    (hOr :
      ∀ s t, Text.Balanced s → Text.Balanced t →
        f (s ++ (joint .or ++ t)) = f s ++ f t)
    (hSome : rows ≠ [])
    (hUnits : ∀ row ∈ rows, ∀ u ∈ row, Text.Balanced u.written) :
    f (ofRows rows).written =
      rows.flatMap fun row =>
        f (Text.join (joint .and) (row.map written)) := by
  rw [written_ofRows,
    flatMap_join (balanced_joint .or) hOr (by simpa using hSome)
      (List.forall_mem_map.mpr fun row hRow =>
        balanced_row (hUnits row hRow)),
    List.flatMap_map]

/- The parts of the text of a tree are those of its units. -/
theorem parts_ofRows
    (hSome : rows ≠ [])
    (hUnits :
      ∀ row ∈ rows,
        row ≠ [] ∧ ∀ u ∈ row, Text.Balanced u.written) :
    parts (ofRows rows).written =
      rows.flatten.flatMap fun u => parts u.written := by
  rw [flatMap_ofRows (fun s t => parts_or) hSome
      fun row hRow => (hUnits row hRow).2,
    List.flatten_eq_flatMap, List.flatMap_assoc]
  refine List.flatMap_congr fun row hRow => ?_
  rcases hUnits row hRow with ⟨hNotNil, hBalanced⟩
  rw [flatMap_join (balanced_joint .and) (fun s t => parts_and)
      (by simpa using hNotNil) (List.forall_mem_map.mpr hBalanced),
    List.flatMap_map]
  rfl

/- Units that are parts are laid out as they stand in the tree. -/
theorem layout_ofRows
    (hSome : rows ≠ [])
    (hUnits :
      ∀ row ∈ rows, row ≠ [] ∧ ∀ u ∈ row, IsPart u.written) :
    layout (ofRows rows).written =
      rows.map fun row => row.map fun u => Text.trim u.written := by
  rw [flatMap_ofRows (fun s t => layout_or isJoint_or) hSome
      fun row hRow u hU => ((hUnits row hRow).2 u hU).balanced,
    List.map_eq_flatMap]
  refine List.flatMap_congr fun row hRow => ?_
  rcases hUnits row hRow with ⟨hNotNil, hParts⟩
  rw [layout_join_and (by simpa using hNotNil)
      (List.forall_mem_map.mpr hParts),
    List.map_map]
  rfl

------------------------------------------------------------
-- What Is Read Back
------------------------------------------------------------

variable {env : Environment}
variable {allowance : Nat}
variable {c d u v : Condition}
variable {p : Predicate}

/- Units that are read back are read back in their tree. -/
theorem readNested_ofRows
    (hSome : rows ≠ [])
    (hUnits :
      ∀ row ∈ rows,
        row ≠ [] ∧
          ∀ u ∈ row,
            IsPart u.written ∧
              readPart env (within env allowance) u.written =
                .ok u) :
    readNested env allowance (ofRows rows).written =
      .ok (ofRows rows) := by
  have hBalanced : Text.Balanced (ofRows rows).written :=
    balanced_ofRows fun row hRow u hUnit =>
      ((hUnits row hRow).2 u hUnit).1.balanced
  refine (readNested_eq_ok_iff hBalanced).mpr ⟨rows, ?_, rfl⟩
  rw [layout_ofRows hSome fun row hRow =>
      ⟨(hUnits row hRow).1,
        fun u hUnit => ((hUnits row hRow).2 u hUnit).1⟩,
    ReadsAs, List.forall₂_map_left_iff, List.forall₂_same]
  intro row hRow
  rw [RowReadsAs, List.forall₂_map_left_iff, List.forall₂_same]
  intro u hUnit
  rw [readPart_trim]
  exact ((hUnits row hRow).2 u hUnit).2

theorem not_isBlank_written
    (hShaped : p.IsShaped) :
    ¬ Text.IsBlank p.written := by
  rcases Predicate.isTrimmed_written hShaped
    with ⟨hTrimmed, -, hSome, -⟩
  rw [← Text.trim_eq_nil_iff, Text.trim_eq_of_isTrimmed hTrimmed]
  exact hSome

/- A predicate that is recalled is read back as a part. -/
theorem readPart_atom
    (deeper? : Option (Text → Except Error Condition))
    (negated : Bool)
    (hShaped : p.IsShaped)
    (hRecalled : p.Recalled env) :
    IsPart (atom negated .first p).written ∧
      readPart env deeper? (atom negated .first p).written =
        .ok (atom negated .first p) := by
  rcases Predicate.isPart_of_recalled hShaped hRecalled
    with ⟨hPart, hBare⟩
  have hText := not_isBlank_written hShaped
  have hHead := (Predicate.isTrimmed_written hShaped).2.1
  rw [written_atom]
  refine ⟨(isPart_withNot_iff negated hPart.balanced).mpr hPart, ?_⟩
  refine
    readPart_eq_ok_iff.mpr
      ⟨not_isBlank_withNot negated hText, .inl ?_⟩
  rw [bare_withNot negated hText, hBare, Bool.xor_false]
  refine ⟨?_, p, Predicate.ofText_written hShaped hRecalled, rfl⟩
  rw [Text.enclosed?, if_neg hHead]

/-
  A part that is read back as a predicate with an equal value
  is one that is recalled. Behind NOT stands no other NOT, or
  the predicate would be read back without any.
-/
theorem recalled_of_readPart_atom
    {deeper? : Option (Text → Except Error Condition)}
    {negated : Bool}
    (hShaped : p.IsShaped)
    (hPart : IsPart (atom negated .first p).written)
    (hRead :
      readPart env deeper? (atom negated .first p).written = .ok v)
    (hSame : (atom negated .first p).same v = true) :
    p.Recalled env := by
  have hText := not_isBlank_written hShaped
  have hBalanced := (Predicate.isTrimmed_written hShaped).2.2.2
  rw [written_atom] at hPart hRead
  rcases (readPart_eq_ok_iff.mp hRead).2 with
    ⟨-, q, hPredicate, rfl⟩ | ⟨_, _, _, -, -, -, -, rfl⟩
  · rw [bare_withNot negated hText] at hPredicate hSame
    rcases same_atom_iff.mp hSame with ⟨⟨hNegated, -⟩, hValue⟩
    have hBare : (bare p.written).1 = false := by
      cases negated <;> simpa using hNegated
    exact
      Predicate.recalled_of_ofText_written hShaped
        ((isPart_withNot_iff negated hBalanced).mp hPart) hBare
        hPredicate hValue
  · simp [enclosed, same] at hSame

/- A tree in parentheses is read as what stands between them. -/
theorem readPart_withNot_group_iff
    {deeper : Text → Except Error Condition}
    (negated : Bool)
    (hBalanced : Text.Balanced t) :
    readPart env (some deeper)
          (withNot negated (Written.inParentheses t)) = .ok v ↔
      ¬ Text.IsBlank t ∧
        ∃ d,
          deeper t = .ok d ∧ v = enclosed (d.negatedIf negated) := by
  have hText : ¬ Text.IsBlank (Written.inParentheses t) :=
    not_isBlank_group _
  have hBare :
      bare (withNot negated (Written.inParentheses t)) =
        (negated, Written.inParentheses t) := by
    rw [bare_withNot negated hText, Written.inParentheses,
      bare_group, Bool.xor_false]
  have hEnclosed :
      Text.enclosed? (Written.inParentheses t) = .ok (some t) :=
    Text.enclosed?_group [] hBalanced
  rw [readPart_eq_ok_iff, hBare, hEnclosed,
    and_iff_right (not_isBlank_withNot negated hText)]
  constructor
  · rintro
      (⟨hNone, -⟩ |
        ⟨_, _, d, hInner, hBlank, hDeeper, hRead, rfl⟩)
    · exact absurd hNone (by simp)
    · cases hInner
      cases hDeeper
      exact ⟨hBlank, d, hRead, rfl⟩
  · rintro ⟨hBlank, d, hRead, rfl⟩
    exact .inr ⟨t, deeper, d, rfl, hBlank, rfl, hRead, rfl⟩

theorem isPart_withNot_group
    (negated : Bool)
    (hBalanced : Text.Balanced t) :
    IsPart (withNot negated (Written.inParentheses t)) := by
  have hPart : IsPart (Written.inParentheses t) :=
    isPart_group hBalanced
  exact (isPart_withNot_iff negated hPart.balanced).mpr hPart

theorem balanced_unit
    {inner : Condition → Prop}
    (hBalanced : ∀ c, inner c → Text.Balanced c.written)
    (hUnit : IsUnit inner u) :
    Text.Balanced u.written := by
  cases hUnit with
  | atom negated p hShaped =>
      rw [written_atom]
      exact
        balanced_withNot negated
          (Predicate.isTrimmed_written hShaped).2.2.2
  | enclosed negated c hInner hPlain =>
      rw [written_enclosed negated hPlain]
      exact
        (isPart_withNot_group negated (hBalanced c hInner)).balanced

/- The text of every tree that is read is balanced. -/
theorem balanced_written
    {levels : Nat}
    (hNested : IsNested levels c) :
    Text.Balanced c.written := by
  induction levels generalizing c with
  | zero => exact absurd hNested id
  | succ levels ih =>
      rcases hNested with ⟨rows, rfl, -, hRows⟩
      exact balanced_ofRows fun row hRow u hUnit =>
        balanced_unit (fun _ => ih) ((hRows row hRow).2 u hUnit)

theorem not_isBlank_of_within
    {deeper : Text → Except Error Condition}
    (hDeeper : within env allowance = some deeper)
    (hRead : deeper t = .ok c) :
    ¬ Text.IsBlank t := by
  cases allowance with
  | zero => exact absurd hDeeper (by simp [within])
  | succ allowance =>
      cases hDeeper
      rcases
        (readNested_eq_ok_iff (balanced_of_readNested hRead)).mp hRead
        with ⟨rows, hReads, -⟩
      exact not_isBlank_of_layout hReads

------------------------------------------------------------
-- Trees That Are Recalled
------------------------------------------------------------

theorem exists_within
    (env : Environment)
    {levels : Nat}
    (hNested : IsNested levels c) :
    ∃ deeper, within env levels = some deeper := by
  cases levels with
  | zero => exact absurd hNested id
  | succ levels => exact ⟨_, rfl⟩

/-
  A tree whose predicates are recalled is read back as it was,
  by induction on its levels. What stands in parentheses is
  read back with one level less.
-/
theorem within_written
    {levels : Nat}
    (hNested : IsNested levels c)
    (hRecalled : ∀ p ∈ c.predicates, p.Recalled env) :
    ∃ deeper,
      within env levels = some deeper ∧
        deeper c.written = .ok c := by
  induction levels generalizing c with
  | zero => exact absurd hNested id
  | succ levels ih =>
      rcases hNested with ⟨rows, rfl, hSome, hRows⟩
      rw [predicates_ofRows] at hRecalled
      refine ⟨readNested env levels, rfl, ?_⟩
      refine readNested_ofRows hSome fun row hRow => ?_
      refine ⟨(hRows row hRow).1, fun u hUnit => ?_⟩
      have hPredicates : ∀ p ∈ u.predicates, p.Recalled env :=
        fun p hMem =>
          hRecalled p
            (List.mem_flatMap.mpr
              ⟨u, List.mem_flatten_of_mem hRow hUnit, hMem⟩)
      cases (hRows row hRow).2 u hUnit with
      | atom negated p hShaped =>
          exact
            readPart_atom (within env levels) negated hShaped
              (hPredicates p (by simp [predicates]))
      | enclosed negated c hInner hPlain =>
          rw [predicates_enclosed] at hPredicates
          rcases ih hInner hPredicates with ⟨deeper, hSome, hRead⟩
          have hBalanced := balanced_written hInner
          rw [written_enclosed negated hPlain, hSome]
          refine ⟨isPart_withNot_group negated hBalanced, ?_⟩
          refine (readPart_withNot_group_iff negated hBalanced).mpr ?_
          exact ⟨not_isBlank_of_within hSome hRead, c, hRead, rfl⟩

------------------------------------------------------------
-- Trees That Are Read Back
------------------------------------------------------------

theorem length_le_flatMap
    {α β : Type}
    {f : α → List β}
    {as : List α}
    (hSome : ∀ a ∈ as, f a ≠ []) :
    as.length ≤ (as.flatMap f).length := by
  induction as with
  | nil => exact Nat.zero_le _
  | cons a as ih =>
      have hFirst :=
        List.length_pos_of_ne_nil (hSome a List.mem_cons_self)
      have hRest := ih fun b h => hSome b (List.mem_cons_of_mem a h)
      rw [List.flatMap_cons, List.length_append, List.length_cons]
      omega

/- Where no more comes out than goes in, one comes out of each. -/
theorem exists_singleton_of_length
    {α β : Type}
    {f : α → List β}
    {as : List α}
    (hSome : ∀ a ∈ as, f a ≠ [])
    (hLength : (as.flatMap f).length = as.length) :
    ∀ a ∈ as, ∃ b, f a = [b] := by
  induction as with
  | nil => simp
  | cons a as ih =>
      have hFirst :=
        List.length_pos_of_ne_nil (hSome a List.mem_cons_self)
      have hTail : ∀ b ∈ as, f b ≠ [] :=
        fun b h => hSome b (List.mem_cons_of_mem a h)
      have hRest := length_le_flatMap hTail
      rw [List.flatMap_cons, List.length_append,
        List.length_cons] at hLength
      refine List.forall_mem_cons.mpr ⟨?_, ih hTail (by omega)⟩
      exact List.length_eq_one_iff.mp (by omega)

/-
  Where the same tree is read back, each of its units is a
  part, and is read back the same. Both trees have as many
  units, so that no unit is split.
-/
theorem units_of_readNested
    {levels : Nat}
    (hSome : rows ≠ [])
    (hRows :
      ∀ row ∈ rows,
        row ≠ [] ∧ ∀ u ∈ row, IsUnit (IsNested levels) u)
    (hRead : readNested env allowance (ofRows rows).written = .ok d)
    (hSame : (ofRows rows).same d = true) :
    ∀ row ∈ rows, ∀ u ∈ row,
      IsPart u.written ∧
        ∃ v,
          readPart env (within env allowance) u.written = .ok v ∧
            u.same v = true := by
  have hBalanced :
      ∀ row ∈ rows, ∀ u ∈ row, Text.Balanced u.written :=
    fun row hRow u hUnit =>
      balanced_unit (fun _ => balanced_written)
        ((hRows row hRow).2 u hUnit)
  rcases (readNested_eq_ok_iff (balanced_ofRows hBalanced)).mp hRead
    with ⟨rows', hReads, rfl⟩
  have hRows' :
      ∀ row ∈ rows', ∀ v ∈ row, IsUnit (fun _ => True) v := by
    intro row hRow v hUnit
    rcases exists_of_mem_forall₂ hReads hRow with ⟨r, -, hRowReads⟩
    rcases exists_of_mem_forall₂ hRowReads hUnit
      with ⟨part, -, hPart⟩
    exact isUnit_of_readPart (fun _ _ _ _ _ => trivial) hPart
  have hUnits :
      List.Forall₂ (fun u v => u.same v = true)
        rows.flatten rows'.flatten := by
    have hSameUnits := forall₂_units_of_same _ _ hSame
    rwa [units_ofRows fun row hRow => (hRows row hRow).2,
      units_ofRows hRows'] at hSameUnits
  have hParts :
      List.Forall₂
        (fun part v =>
          readPart env (within env allowance) part = .ok v)
        (rows.flatten.flatMap fun u => parts u.written)
        rows'.flatten := by
    rw [← parts_ofRows hSome fun row hRow =>
      ⟨(hRows row hRow).1, hBalanced row hRow⟩]
    exact List.rel_flatten hReads
  have hSingle :=
    exists_singleton_of_length
      (fun u _ => parts_ne_nil u.written)
      (hParts.length_eq.trans hUnits.length_eq.symm)
  have hPart (u : Condition) (hMem : u ∈ rows.flatten) :
      IsPart u.written ∧ parts u.written = [Text.trim u.written] := by
    rcases hSingle u hMem with ⟨part, hOnly⟩
    rcases List.mem_flatten.mp hMem with ⟨row, hRow, hUnit⟩
    rcases isPart_of_parts (hBalanced row hRow u hUnit) hOnly
      with ⟨hPart, rfl⟩
    exact ⟨hPart, hOnly⟩
  rw [List.flatMap_congr fun u hMem => (hPart u hMem).2,
    ← List.map_eq_flatMap, List.forall₂_map_left_iff] at hParts
  intro row hRow u hUnit
  have hMem := List.mem_flatten_of_mem hRow hUnit
  have hBoth :=
    hParts.mp (fun _ _ hPart hSame => And.intro hPart hSame) hUnits
  rcases exists_of_mem_forall₂ hBoth.flip hMem
    with ⟨v, -, hReadPart, hSameUnit⟩
  rw [readPart_trim] at hReadPart
  exact ⟨(hPart u hMem).1, v, hReadPart, hSameUnit⟩

/-
  The predicates of a tree that is read back the same were
  recalled, by induction on the levels of the tree.
-/
theorem recalled_of_within
    {levels : Nat}
    {deeper : Text → Except Error Condition}
    (hNested : IsNested levels c)
    (hDeeper : within env levels = some deeper)
    (hRead : deeper c.written = .ok d)
    (hSame : c.same d = true) :
    ∀ p ∈ c.predicates, p.Recalled env := by
  induction levels generalizing c d deeper with
  | zero => exact absurd hNested id
  | succ levels ih =>
      cases hDeeper
      rcases hNested with ⟨rows, rfl, hSome, hRows⟩
      have hUnits := units_of_readNested hSome hRows hRead hSame
      rw [predicates_ofRows]
      intro p hMem
      rcases List.mem_flatMap.mp hMem with ⟨u, hFlat, hMem⟩
      rcases List.mem_flatten.mp hFlat with ⟨row, hRow, hUnit⟩
      rcases hUnits row hRow u hUnit
        with ⟨hPart, v, hReadPart, hSameUnit⟩
      cases (hRows row hRow).2 u hUnit with
      | atom negated q hShaped =>
          have hOnly : p = q := by simpa [predicates] using hMem
          rw [hOnly]
          exact
            recalled_of_readPart_atom hShaped hPart hReadPart
              hSameUnit
      | enclosed negated c hInner hPlain =>
          rcases exists_within env hInner with ⟨deeper, hDeeper⟩
          rw [written_enclosed negated hPlain, hDeeper] at hReadPart
          rcases (readPart_withNot_group_iff negated
            (balanced_written hInner)).mp hReadPart
            with ⟨-, d, hReadInner, rfl⟩
          rw [same_enclosed, same_negatedIf] at hSameUnit
          rw [predicates_enclosed] at hMem
          exact ih hInner hDeeper hReadInner hSameUnit p hMem

------------------------------------------------------------
-- Round Trip
------------------------------------------------------------

theorem predicates_eq_nil_of_same_empty
    (hSame : c.same empty = true) :
    c.predicates = [] := by
  cases c with
  | atom negated connective p => simp [empty, same] at hSame
  | group negated connective cs =>
      have hLength :=
        length_eq_of_sameAll cs [] (same_group_iff.mp hSame).2
      rw [List.eq_nil_of_length_eq_zero hLength]
      simp [predicates, predicatesOf]

/-
  Let a condition be read from a text. What is read from the
  condition in writing is a condition that is the same exactly
  if all predicates are recalled.
-/
theorem same_ofText_written_iff
    (hRead : ofText env t = .ok c) :
    (∃ d, ofText env c.written = .ok d ∧ c.same d = true) ↔
      ∀ p ∈ c.predicates, p.Recalled env := by
  by_cases hBlank : Text.IsBlank t
  · rw [ofText, if_pos hBlank] at hRead
    cases hRead
    refine iff_of_true ⟨empty, rfl, same_refl empty⟩ ?_
    simp [empty, predicates, predicatesOf]
  · rw [ofText, if_neg hBlank] at hRead
    have hNested := isNested_of_readNested hRead
    constructor
    · rintro ⟨d, hAgain, hSame⟩
      rw [ofText] at hAgain
      split_ifs at hAgain with hNothing
      · cases hAgain
        rw [predicates_eq_nil_of_same_empty hSame]
        simp
      · exact recalled_of_within hNested rfl hAgain hSame
    · intro hRecalled
      rcases within_written hNested hRecalled
        with ⟨deeper, hDeeper, hAgain⟩
      refine ⟨c, ?_, same_refl c⟩
      rw [ofText, if_neg (not_isBlank_of_within hDeeper hAgain)]
      cases hDeeper
      exact hAgain

/- A table of one field with the name given. -/
def oneField
    (name : Text) : Environment :=
  { schema := ⟨[⟨name, .ofCategory .integer⟩]⟩
    scope := ⟨none, none⟩
    selected := none }

/- Parentheses, NOT and a list are read back as they were. -/
theorem same_ofText_written_iff_not_or :
    ∃ c,
      ofText (oneField "A".toList)
          "not (A > 1 or a in (2, 3)) AND NOT NOT A is null".toList =
        .ok c ∧
        ∃ d,
          ofText (oneField "A".toList) c.written = .ok d ∧
            c.same d = true := by
  let isMore : Predicate :=
    ⟨"A".toList, .gt, some "1".toList, none, some (.integer 1)⟩
  let isIn : Predicate :=
    ⟨"a".toList, .inList, some "2;3".toList, none, none⟩
  let isNull : Predicate := .bare "A".toList .isNull
  let c : Condition :=
    joinAll .and
      [enclosed
          (.group true .first
            [.atom false .first isMore, .atom false .or isIn]),
        .atom false .first isNull]
  have hRead :
      ofText (oneField "A".toList)
          "not (A > 1 or a in (2, 3)) AND NOT NOT A is null".toList =
        .ok c := by
    decide +kernel
  exact
    ⟨c, hRead,
      (same_ofText_written_iff hRead).mpr (by decide +kernel)⟩

/-
  Not every condition is read back. The name of a field is
  written without quotes where it looks plain, also if it is
  NOT.
-/
theorem not_forall_same_ofText_written :
    ¬ ∀ env t c,
      ofText env t = .ok c →
        ∃ d, ofText env c.written = .ok d ∧ c.same d = true := by
  intro hAll
  let isOne : Predicate :=
    ⟨"NOT".toList, .eq, some "1".toList, none, some (.integer 1)⟩
  have hRead :
      ofText (oneField "NOT".toList) "\"NOT\" = 1".toList =
        .ok (.atom false .first isOne) := by
    decide +kernel
  have hAgain :
      ofText (oneField "NOT".toList)
          (atom false .first isOne).written =
        .error (.malformed (.missingLeftOperand "= 1".toList)) := by
    decide +kernel
  rcases hAll _ _ _ hRead with ⟨d, hOk, -⟩
  rw [hAgain] at hOk
  exact absurd hOk (by simp)

end Condition

end SqlSelect
