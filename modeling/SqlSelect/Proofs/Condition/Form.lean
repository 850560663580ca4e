import SqlSelect.Condition.Form
import SqlSelect.Proofs.Origin.Names
import SqlSelect.Proofs.Recall.Conditions

/-
  Every condition that is read is well-formed. Its units are,
  a row of units with AND between them is, and so are rows
  with OR between them, one level of parentheses after the
  other.

  Main statements:
    * `Predicate.wellFormed_of_isShaped`
    * `Condition.wellFormed_joinAll_or`
    * `Condition.wellFormed_of_isNested`
    * `Condition.wellFormed_of_ofText`
-/

namespace SqlSelect

------------------------------------------------------------
-- Predicates
------------------------------------------------------------

namespace Predicate

variable {p : Predicate}

/- A comparison of two operands has a field or a value. -/
theorem wellFormed_binary_iff
    (hBinary : p.comparison.isBinary = true) :
    p.WellFormed ↔
      (p.rightField.isSome = true ∧ p.rightText = none ∧
          p.value = none) ∨
        (p.value.isSome = true ∧
          p.rightText = p.value.map Literal.shown ∧
          p.rightField = none) := by
  unfold WellFormed
  split
  case h_5 => rfl
  all_goals
    rename_i hOther
    rw [hOther] at hBinary
    exact absurd hBinary Bool.false_ne_true

theorem wellFormed_of_compares
    {left : Text}
    (hCompares : Compares left p) :
    p.WellFormed := by
  cases hCompares with
  | test comparison hTest =>
      rcases hTest with rfl | rfl <;> exact ⟨⟨rfl, rfl⟩, rfl⟩
  | list values => exact ⟨rfl, rfl, rfl⟩
  | value comparison v hBinary hRead =>
      exact (wellFormed_binary_iff hBinary).mpr (.inr ⟨rfl, rfl, rfl⟩)
  | field comparison field hBinary =>
      exact (wellFormed_binary_iff hBinary).mpr (.inl ⟨rfl, rfl, rfl⟩)

/- A predicate with a shape has what it needs on its right. -/
theorem wellFormed_of_isShaped
    (hShaped : p.IsShaped) :
    p.WellFormed := by
  cases hShaped with
  | parameter name value hName hValue =>
      exact ⟨hName, by simpa using hValue, rfl, rfl⟩
  | compares hCompares => exact wellFormed_of_compares hCompares

end Predicate

------------------------------------------------------------
-- Groups of a Tree
------------------------------------------------------------

namespace Condition

variable {c d u : Condition}
variable {cs group : List Condition}
variable {connective : Connective}

@[simp]
theorem connective_negatedIf
    (c : Condition)
    (flip : Bool) :
    (c.negatedIf flip).connective = c.connective := by
  cases c <;> rfl

@[simp]
theorem groups_joinedBy
    (c : Condition)
    (connective : Connective) :
    (c.joinedBy connective).groups = c.groups := by
  cases c <;> simp [joinedBy, groups]

@[simp]
theorem groups_negatedIf
    (c : Condition)
    (flip : Bool) :
    (c.negatedIf flip).groups = c.groups := by
  cases c <;> simp [negatedIf, groups]

theorem mem_groupsOf :
    group ∈ groupsOf cs ↔ ∃ c ∈ cs, group ∈ c.groups := by
  induction cs with
  | nil => simp [groupsOf]
  | cons c cs ih => simp [groupsOf, ih]

theorem mem_groups_group
    {negated : Bool} :
    group ∈ (Condition.group negated connective cs).groups ↔
      group = cs ∨ ∃ c ∈ cs, group ∈ c.groups := by
  rw [groups, List.mem_cons, mem_groupsOf]

/- What holds of all groups of a group holds of its conditions. -/
theorem forall_groups_group
    {property : List Condition → Prop}
    {negated : Bool} :
    (∀ ds ∈ (Condition.group negated connective cs).groups,
        property ds) ↔
      property cs ∧ ∀ c ∈ cs, ∀ ds ∈ c.groups, property ds := by
  simp only [mem_groups_group]
  constructor
  · intro hAll
    exact
      ⟨hAll cs (.inl rfl),
        fun c hMem ds hGroup => hAll ds (.inr ⟨c, hMem, hGroup⟩)⟩
  · rintro ⟨hGroup, hAll⟩ ds (rfl | ⟨c, hMem, hIn⟩)
    · exact hGroup
    · exact hAll c hMem ds hIn

/- All groups of the tree are joined throughout. -/
def HasRegularGroups
    (c : Condition) : Prop :=
  ∀ group ∈ c.groups, IsRegular .and group ∨ IsRegular .or group

@[simp]
theorem hasRegularGroups_joinedBy :
    (c.joinedBy connective).HasRegularGroups ↔
      c.HasRegularGroups := by
  rw [HasRegularGroups, groups_joinedBy]
  rfl

theorem hasRegularGroups_group
    {negated : Bool} :
    (Condition.group negated connective cs).HasRegularGroups ↔
      (IsRegular .and cs ∨ IsRegular .or cs) ∧
        ∀ c ∈ cs, c.HasRegularGroups :=
  forall_groups_group

------------------------------------------------------------
-- Conditions That Are Joined
------------------------------------------------------------

theorem joinAll_eq_group
    (connective : Connective)
    (first second : Condition)
    (rest : List Condition) :
    joinAll connective (first :: second :: rest) =
      .group false .first
        (chained connective (first :: second :: rest)) := rfl

/-
  What joined the conditions before makes no difference to
  conditions that are joined anew.
-/
theorem chained_congr
    {connective : Connective}
    {cs ds : List Condition}
    (hSame :
      ∀ k, cs.map (fun c => c.joinedBy k) =
        ds.map fun d => d.joinedBy k) :
    chained connective cs = chained connective ds := by
  have hFirst := hSame .first
  have hRest := hSame connective
  cases cs with
  | nil =>
      rw [List.map_nil, eq_comm, List.map_eq_nil_iff] at hFirst
      rw [hFirst]
  | cons c cs =>
      cases ds with
      | nil => exact absurd hFirst (by simp)
      | cons d ds =>
          rw [List.map_cons, List.map_cons, List.cons.injEq]
            at hFirst hRest
          rw [chained, chained, hFirst.1, hRest.2]

@[simp]
theorem fitsIn_joinedBy
    {inner : Connective} :
    (c.joinedBy inner).FitsIn connective ↔ c.FitsIn connective := by
  cases c <;> rfl

theorem plain_of_fitsIn
    (hFits : c.FitsIn connective) :
    c.isAtom = true ∨ c.negated = false := by
  cases c with
  | atom negated k p => exact .inl rfl
  | group negated k children => exact .inr hFits.1

theorem length_chained
    (connective : Connective)
    (cs : List Condition) :
    (chained connective cs).length = cs.length := by
  cases cs <;> simp [chained]

theorem joinedWith_chained
    (connective : Connective)
    (cs : List Condition) :
    JoinedWith connective (chained connective cs) := by
  cases cs with
  | nil => trivial
  | cons c cs => simp [chained, JoinedWith]

theorem exists_of_mem_chained
    (hMem : c ∈ chained connective cs) :
    ∃ d ∈ cs, ∃ k, c = d.joinedBy k := by
  cases cs with
  | nil => exact absurd hMem List.not_mem_nil
  | cons d cs =>
      rw [chained, List.mem_cons, List.mem_map] at hMem
      rcases hMem with rfl | ⟨e, hIn, rfl⟩
      · exact ⟨d, List.mem_cons_self, .first, rfl⟩
      · exact ⟨e, List.mem_cons_of_mem d hIn, connective, rfl⟩

/- The condition is well-formed and may be one of several. -/
structure IsMember
    (connective : Connective)
    (c : Condition) : Prop where
  first : c.connective = .first
  fits : c.FitsIn connective
  regular : c.HasRegularGroups

theorem IsMember.wellFormed
    (hMember : IsMember connective c) :
    c.WellFormed :=
  ⟨⟨hMember.first, plain_of_fitsIn hMember.fits⟩, hMember.regular⟩

theorem isRegular_chained
    (hSome : cs ≠ [])
    (hFits : ∀ c ∈ cs, c.FitsIn connective) :
    IsRegular connective (chained connective cs) := by
  refine ⟨⟨?_, joinedWith_chained connective cs⟩, fun _ c hMem => ?_⟩
  · rw [← List.length_pos_iff, length_chained, List.length_pos_iff]
    exact hSome
  · rcases exists_of_mem_chained hMem with ⟨d, hIn, k, rfl⟩
    exact fitsIn_joinedBy.mpr (hFits d hIn)

theorem hasRegularGroups_chained
    (hSome : cs ≠ [])
    (hMembers : ∀ c ∈ cs, IsMember connective c)
    (hKeyword : connective = .and ∨ connective = .or) :
    (Condition.group false .first
      (chained connective cs)).HasRegularGroups := by
  have hRegular :=
    isRegular_chained hSome fun c hMem => (hMembers c hMem).fits
  refine hasRegularGroups_group.mpr ⟨?_, fun c hMem => ?_⟩
  · rcases hKeyword with rfl | rfl
    · exact .inl hRegular
    · exact .inr hRegular
  · rcases exists_of_mem_chained hMem with ⟨d, hIn, k, rfl⟩
    exact hasRegularGroups_joinedBy.mpr (hMembers d hIn).regular

/-
  Conditions that may be joined with AND or with OR make a
  well-formed condition. With AND it may itself be one of
  those that are joined with OR.
-/
theorem isMember_joinAll_and
    (hSome : cs ≠ [])
    (hMembers : ∀ c ∈ cs, ∀ k, IsMember k c) :
    IsMember .or (joinAll .and cs) := by
  rcases cs with _ | ⟨c, _ | ⟨d, cs⟩⟩
  · exact absurd rfl hSome
  · exact hMembers c List.mem_cons_self .or
  · rw [joinAll_eq_group]
    refine
      ⟨rfl, ⟨rfl, .inr ⟨rfl, ?_, joinedWith_chained .and _⟩⟩,
        hasRegularGroups_chained hSome
          (fun c hMem => hMembers c hMem .and) (.inl rfl)⟩
    simp [length_chained]

theorem wellFormed_joinAll_or
    (hSome : cs ≠ [])
    (hMembers : ∀ c ∈ cs, IsMember .or c) :
    (joinAll .or cs).WellFormed := by
  rcases cs with _ | ⟨c, _ | ⟨d, cs⟩⟩
  · exact absurd rfl hSome
  · exact (hMembers c List.mem_cons_self).wellFormed
  · rw [joinAll_eq_group]
    exact
      ⟨⟨rfl, .inr rfl⟩,
        hasRegularGroups_chained hSome hMembers (.inr rfl)⟩

------------------------------------------------------------
-- Trees That Are Read
------------------------------------------------------------

/- A unit may be one of several, however they are joined. -/
theorem isMember_of_isUnit
    {inner : Condition → Prop}
    (hInner : ∀ c, inner c → c.WellFormed)
    (hUnit : IsUnit inner u)
    (connective : Connective) :
    IsMember connective u := by
  cases hUnit with
  | atom negated p hShaped =>
      exact ⟨rfl, trivial, fun _ hMem => absurd hMem List.not_mem_nil⟩
  | enclosed negated c hWithin hPlain =>
      have hForm := hInner c hWithin
      refine ⟨rfl, ⟨rfl, .inl rfl⟩, ?_⟩
      refine hasRegularGroups_group.mpr ⟨.inl ⟨?_, ?_⟩, ?_⟩
      · exact ⟨List.cons_ne_nil _ _, by simpa [JoinedWith] using hForm.1.1⟩
      · intro hSeveral
        exact absurd hSeveral (by simp)
      · intro d hMem
        rw [List.mem_singleton] at hMem
        rw [hMem, HasRegularGroups, groups_negatedIf]
        exact hForm.2

/- A tree of units is well-formed, by induction on its levels. -/
theorem wellFormed_of_isNested
    {levels : Nat}
    (hNested : IsNested levels c) :
    c.WellFormed := by
  induction levels generalizing c with
  | zero => exact hNested.elim
  | succ levels ih =>
      rcases hNested with ⟨rows, rfl, hSome, hRows⟩
      refine wellFormed_joinAll_or (by simpa using hSome) ?_
      refine List.forall_mem_map.mpr fun row hRow => ?_
      refine isMember_joinAll_and (hRows row hRow).1 fun u hMem => ?_
      exact
        isMember_of_isUnit (fun _ => ih) ((hRows row hRow).2 u hMem)

/- A tree of units is not the group of none. -/
theorem ne_empty_of_wellFormed
    (hForm : c.WellFormed) :
    c ≠ empty := by
  rintro rfl
  rcases hForm.2 [] (by simp [empty, groups]) with hNone | hNone
  · exact hNone.1.1 rfl
  · exact hNone.1.1 rfl

/-
  Only a blank text is read as the condition that always
  holds, and what any other text is read as is well-formed,
  with predicates that are.
-/
theorem wellFormed_of_ofText
    {env : Environment}
    {t : Text}
    (hRead : ofText env t = .ok c) :
    (c = empty ↔ Text.IsBlank t) ∧
      (¬ Text.IsBlank t →
        c.WellFormed ∧ ∀ p ∈ c.predicates, p.WellFormed) := by
  by_cases hBlank : Text.IsBlank t
  · rw [ofText, if_pos hBlank] at hRead
    cases hRead
    exact ⟨iff_of_true rfl hBlank, fun h => absurd hBlank h⟩
  · rw [ofText, if_neg hBlank] at hRead
    have hForm := wellFormed_of_isNested (isNested_of_readNested hRead)
    refine
      ⟨iff_of_false (ne_empty_of_wellFormed hForm) hBlank,
        fun _ => ⟨hForm, fun p hMem => ?_⟩⟩
    rcases exists_ofText_of_readNested hRead p hMem
      with ⟨u, -, hPredicate⟩
    exact
      Predicate.wellFormed_of_isShaped
        (Predicate.isShaped_of_ofText hPredicate)

/- No value, or not both: NOT stands inside of parentheses. -/
def missingOrNotBoth : Condition :=
  .group false .first
    [ .atom false .first (.bare "A".toList .isNull),
      .group false .or
        [ .group true .first
            [ .atom false .first
                ⟨"A".toList, .gt, some "1".toList, none,
                  some (.integer 1)⟩,
              .atom true .and
                ⟨"A".toList, .inList, some "2;3".toList, none,
                  none⟩ ] ] ]

/- AND stands between the conditions that NOT is in front of. -/
theorem wellFormed_of_ofText_not_and :
    ofText (oneField "A".toList)
          "A IS NULL OR NOT (A > 1 AND NOT A IN (2, 3))".toList =
        .ok missingOrNotBoth ∧
      missingOrNotBoth.WellFormed ∧
      ∀ p ∈ missingOrNotBoth.predicates, p.WellFormed := by
  have hRead :
      ofText (oneField "A".toList)
          "A IS NULL OR NOT (A > 1 AND NOT A IN (2, 3))".toList =
        .ok missingOrNotBoth := by
    decide +kernel
  exact ⟨hRead, (wellFormed_of_ofText hRead).2 (by decide)⟩

end Condition

end SqlSelect
