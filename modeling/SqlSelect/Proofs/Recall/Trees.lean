import SqlSelect.Condition.Writing
import SqlSelect.Proofs.Condition.Parts
import SqlSelect.Proofs.Recall.Shapes

/-
  Trees of conditions that are read. A tree is made of rows
  of units, with AND in a row and OR between rows, and a unit
  is a predicate or a tree in parentheses. Written down, it is
  the texts of its units with keywords between them.

  Main statements:
    * `Condition.isNested_of_readNested`
    * `Condition.written_joinAll`
    * `Condition.written_enclosed`
    * `Condition.units_joinAll`
    * `Condition.forall₂_units_of_same`
-/

namespace SqlSelect

namespace Condition

------------------------------------------------------------
-- Trees of Units
------------------------------------------------------------

/-
  A predicate, or a tree in parentheses, with NOT or without.
  Behind NOT stands a tree that has no NOT of its own.
-/
inductive IsUnit
    (inner : Condition → Prop) : Condition → Prop where
  | atom
      (negated : Bool)
      (p : Predicate)
      (hShaped : p.IsShaped) :
      IsUnit inner (.atom negated .first p)
  | enclosed
      (negated : Bool)
      (c : Condition)
      (hInner : inner c)
      (hPlain : c.negated = false) :
      IsUnit inner (enclosed (c.negatedIf negated))

/- Rows with OR between them, of units with AND between them. -/
def ofRows
    (rows : List (List Condition)) : Condition :=
  joinAll .or (rows.map (joinAll .and))

/- A tree of units. -/
def IsTree
    (unit : Condition → Prop)
    (c : Condition) : Prop :=
  ∃ rows,
    c = ofRows rows ∧ rows ≠ [] ∧
      ∀ row ∈ rows, row ≠ [] ∧ ∀ u ∈ row, unit u

/- A tree with fewer levels of parentheses than given. -/
def IsNested : Nat → Condition → Prop
  | 0 => fun _ => False
  | levels + 1 => IsTree (IsUnit (IsNested levels))

variable {inner : Condition → Prop}
variable {unit : Condition → Prop}
variable {c d u : Condition}

/- What is joined is alone, or has no NOT in front of it. -/
theorem joinAll_cases
    (connective : Connective)
    (cs : List Condition) :
    (∃ c, cs = [c] ∧ joinAll connective cs = c) ∨
      (joinAll connective cs).negated = false := by
  rcases cs with _ | ⟨c, _ | ⟨d, cs⟩⟩
  · exact .inr rfl
  · exact .inl ⟨c, rfl, rfl⟩
  · exact .inr rfl

/- A tree is a unit, or it has no NOT in front of it. -/
theorem IsTree.unit_or_plain
    (hTree : IsTree unit c) :
    unit c ∨ c.negated = false := by
  rcases hTree with ⟨rows, rfl, -, hRows⟩
  rcases joinAll_cases .or (rows.map (joinAll .and))
    with ⟨c, hOnly, hJoined⟩ | hPlain
  · rcases List.map_eq_singleton_iff.mp hOnly with ⟨row, rfl, hRow⟩
    rcases joinAll_cases .and row
      with ⟨u, rfl, hUnit⟩ | hPlain
    · have hUnits := (hRows [u] List.mem_cons_self).2
      exact .inl (hUnits u List.mem_cons_self)
    · rw [ofRows, hJoined, ← hRow]
      exact .inr hPlain
  · exact .inr hPlain

@[simp]
theorem negatedIf_false
    (c : Condition) :
    c.negatedIf false = c := by
  cases c <;> simp [negatedIf]

@[simp]
theorem negatedIf_negatedIf
    (c : Condition)
    (first second : Bool) :
    (c.negatedIf first).negatedIf second =
      c.negatedIf (first ^^ second) := by
  cases c <;> simp [negatedIf]

@[simp]
theorem negated_negatedIf
    (c : Condition)
    (flip : Bool) :
    (c.negatedIf flip).negated = (c.negated ^^ flip) := by
  cases c <;> rfl

theorem isTree_of_unit
    (hUnit : unit u) :
    IsTree unit u :=
  ⟨[[u]], rfl, by simp, by simpa using hUnit⟩

/- A tree stays one without the NOT in front of it. -/
theorem IsTree.plain
    (hTree : IsTree (IsUnit inner) c) :
    IsTree (IsUnit inner) (c.negatedIf c.negated) := by
  rcases hTree.unit_or_plain with hUnit | hPlain
  · cases hUnit with
    | atom negated p hShaped =>
        exact isTree_of_unit (.atom _ p hShaped)
    | enclosed negated c hInner hPlain => exact hTree
  · rw [hPlain, negatedIf_false]
    exact hTree

------------------------------------------------------------
-- What Is Read
------------------------------------------------------------

variable {env : Environment}
variable {t : Text}

/- What is related to a member of a list, member by member. -/
theorem exists_of_mem_forall₂
    {α β : Type}
    {R : α → β → Prop}
    {as : List α}
    {bs : List β}
    (hAll : List.Forall₂ R as bs)
    {b : β}
    (hMem : b ∈ bs) :
    ∃ a ∈ as, R a b := by
  induction hAll with
  | nil => exact absurd hMem List.not_mem_nil
  | cons hFirst hRest ih =>
      rcases List.mem_cons.mp hMem with rfl | hMem
      · exact ⟨_, List.mem_cons_self, hFirst⟩
      · rcases ih hMem with ⟨a, hIn, hRelated⟩
        exact ⟨a, List.mem_cons_of_mem _ hIn, hRelated⟩

/- There is a row in every text, and a part in every row. -/
theorem layout_ne_nil
    (t : Text) :
    layout t ≠ [] ∧ ∀ r ∈ layout t, r ≠ [] := by
  refine ⟨?_, ?_⟩
  · rw [layout, ne_eq, List.map_eq_nil_iff]
    exact Cut.pieces_ne_nil _
  · intro r hMem
    rcases List.mem_map.mp hMem with ⟨piece, -, rfl⟩
    rw [row, ne_eq, List.map_eq_nil_iff]
    exact Cut.pieces_ne_nil _

/- What is read of a text are the rows of its layout. -/
theorem readNested_eq_ok_iff
    {allowance : Nat}
    (hBalanced : Text.Balanced t) :
    readNested env allowance t = .ok c ↔
      ∃ rows,
        ReadsAs env (within env allowance) (layout t) rows ∧
          c = ofRows rows := by
  rw [readNested_eq]
  exact readAll_eq_ok_iff hBalanced

/- A part is read as a unit, if trees are read between parentheses. -/
theorem isUnit_of_readPart
    {deeper? : Option (Text → Except Error Condition)}
    (hDeeper :
      ∀ deeper, deeper? = some deeper →
        ∀ t c, deeper t = .ok c →
          inner (c.negatedIf c.negated))
    (hRead : readPart env deeper? t = .ok u) :
    IsUnit inner u := by
  rcases (readPart_eq_ok_iff.mp hRead).2 with
    ⟨-, p, hPredicate, rfl⟩ |
      ⟨between, deeper, c, -, -, hSome, hInner, rfl⟩
  · exact .atom _ p (Predicate.isShaped_of_ofText hPredicate)
  · have hUnit :=
      IsUnit.enclosed (c.negated ^^ (bare t).1)
        (c.negatedIf c.negated)
        (hDeeper deeper hSome between c hInner) (by simp)
    simpa using hUnit

/- Parts that are read as units are read together as a tree. -/
theorem isTree_of_readNested
    {allowance : Nat}
    (hUnit :
      ∀ part u,
        readPart env (within env allowance) part = .ok u → unit u)
    (hRead : readNested env allowance t = .ok c) :
    IsTree unit c := by
  rcases (readNested_eq_ok_iff (balanced_of_readNested hRead)).mp
    hRead with ⟨rows, hReads, rfl⟩
  rcases layout_ne_nil t with ⟨hSome, hParts⟩
  refine ⟨rows, rfl, ?_, ?_⟩
  · rintro rfl
    exact hSome (List.forall₂_nil_right_iff.mp hReads)
  · intro row hRow
    rcases exists_of_mem_forall₂ hReads hRow with ⟨r, hMem, hRowReads⟩
    refine ⟨?_, ?_⟩
    · rintro rfl
      exact hParts r hMem (List.forall₂_nil_right_iff.mp hRowReads)
    · intro u hIn
      rcases exists_of_mem_forall₂ hRowReads hIn
        with ⟨part, -, hPart⟩
      exact hUnit part u hPart

/-
  What is read is a tree with no more levels than may be
  open, by induction on how many may be.
-/
theorem isNested_of_readNested
    {allowance : Nat}
    (hRead : readNested env allowance t = .ok c) :
    IsNested (allowance + 1) c := by
  induction allowance generalizing t c with
  | zero =>
      refine isTree_of_readNested ?_ hRead
      intro part u hPart
      refine isUnit_of_readPart ?_ hPart
      intro deeper hNone
      exact absurd hNone (by simp [within])
  | succ allowance ih =>
      refine isTree_of_readNested ?_ hRead
      intro part u hPart
      refine isUnit_of_readPart ?_ hPart
      intro deeper hSome t c hInner
      cases hSome
      exact (ih hInner).plain

------------------------------------------------------------
-- Trees in Writing
------------------------------------------------------------

/- A text, with NOT in front of it if `negated` says so. -/
def withNot
    (negated : Bool)
    (t : Text) : Text :=
  if negated = false then t else "NOT ".toList ++ t

/- The keyword in writing that joins. -/
def joint
    (connective : Connective) : Text :=
  if connective = .or then " OR ".toList else " AND ".toList

theorem written_atom
    (negated : Bool)
    (connective : Connective)
    (p : Predicate) :
    (atom negated connective p).written = withNot negated p.written := by
  cases negated <;> rfl

theorem writing_negatedIf
    (c : Condition)
    (flip : Bool) :
    (c.negatedIf flip).writing =
      { c.writing with negated := c.negated ^^ flip } := by
  cases c <;> rfl

theorem writing_joinedBy
    (c : Condition)
    (connective : Connective) :
    (c.joinedBy connective).writing =
      { c.writing with connective := connective } := by
  cases c <;> rfl

@[simp]
theorem written_joinedBy
    (c : Condition)
    (connective : Connective) :
    (c.joinedBy connective).written = c.written := by
  rw [written, writing_joinedBy]
  rfl

theorem negated_writing
    (c : Condition) :
    c.writing.negated = c.negated := by
  cases c <;> rfl

/- A tree without NOT in parentheses, with NOT in front of them. -/
theorem written_enclosed
    (negated : Bool)
    (hPlain : c.negated = false) :
    (enclosed (c.negatedIf negated)).written =
      withNot negated (Written.inParentheses c.written) := by
  have hBody : c.writing.body = c.written := by
    rw [written, Written.text, negated_writing, hPlain, if_pos rfl]
  have hText :
      (enclosed (c.negatedIf negated)).written =
        Written.groupText [(c.negatedIf negated).writing] := rfl
  rw [hText, writing_negatedIf, hPlain, ← hBody]
  cases negated <;> rfl

theorem join_cons
    (separator first : Text)
    (rest : List Text) :
    Text.join separator (first :: rest) =
      first ++ rest.flatMap fun t => separator ++ t := by
  induction rest generalizing first with
  | nil => simp [Text.join]
  | cons next rest ih =>
      rw [Text.join, ih, List.flatMap_cons]
      simp only [List.append_assoc]

theorem writings_map_joinedBy
    (connective : Connective)
    (cs : List Condition) :
    writings (cs.map fun c => c.joinedBy connective) =
      cs.map fun c => { c.writing with connective := connective } := by
  induction cs with
  | nil => rfl
  | cons c cs ih =>
      rw [List.map_cons, writings, writing_joinedBy, ih]
      rfl

/- Conditions that are joined are the texts of them, joined. -/
theorem written_joinAll
    (connective : Connective)
    (cs : List Condition) :
    (joinAll connective cs).written =
      Text.join (joint connective) (cs.map written) := by
  rcases cs with _ | ⟨c, _ | ⟨d, cs⟩⟩
  · rfl
  · rfl
  · have hText :
        (joinAll connective (c :: d :: cs)).written =
          (c.joinedBy .first).written ++
            (writings
              ((d :: cs).map fun c => c.joinedBy connective)).flatMap
              fun w => w.lead ++ w.text := rfl
    rw [hText, writings_map_joinedBy, written_joinedBy,
      List.flatMap_map, List.map_cons, join_cons, List.flatMap_map]
    rfl

/- Rows of units are their texts, joined with AND and with OR. -/
theorem written_ofRows
    (rows : List (List Condition)) :
    (ofRows rows).written =
      Text.join (joint .or)
        (rows.map fun row =>
          Text.join (joint .and) (row.map written)) := by
  rw [ofRows, written_joinAll, List.map_map]
  congr 1
  exact List.map_congr_left fun row _ => written_joinAll .and row

------------------------------------------------------------
-- Units of a Tree
------------------------------------------------------------

mutual

/- The units of a tree, from left to right. -/
def units : Condition → List Condition
  | .atom negated _ p => [.atom negated .first p]
  | .group negated _ children =>
      if children.length = 1 then [.group negated .first children]
      else unitsOf children

/- The units of some trees, from left to right. -/
def unitsOf : List Condition → List Condition
  | [] => []
  | child :: rest => units child ++ unitsOf rest

end

theorem unitsOf_eq
    (cs : List Condition) :
    unitsOf cs = cs.flatMap units := by
  induction cs with
  | nil => simp [unitsOf]
  | cons c cs ih => rw [unitsOf, ih, List.flatMap_cons]

@[simp]
theorem units_joinedBy
    (c : Condition)
    (connective : Connective) :
    (c.joinedBy connective).units = c.units := by
  cases c <;> simp [joinedBy, units]

theorem units_joinAll
    (connective : Connective)
    (cs : List Condition) :
    (joinAll connective cs).units = cs.flatMap units := by
  rcases cs with _ | ⟨c, _ | ⟨d, cs⟩⟩
  · simp [joinAll, empty, units, unitsOf]
  · simp [joinAll]
  · simp [joinAll, units, unitsOf_eq, List.flatMap_map]

/- A unit is the only one of itself. -/
theorem IsUnit.units_eq
    (hUnit : IsUnit inner u) :
    u.units = [u] := by
  cases hUnit <;> simp [units, Condition.enclosed]

theorem units_ofRows
    {rows : List (List Condition)}
    (hRows : ∀ row ∈ rows, ∀ u ∈ row, IsUnit inner u) :
    (ofRows rows).units = rows.flatten := by
  rw [ofRows, units_joinAll, List.flatMap_map, ← List.flatMap_id]
  refine List.flatMap_congr fun row hRow => ?_
  rw [units_joinAll, List.flatMap_congr
    fun u hMem => (hRows row hRow u hMem).units_eq]
  simp

mutual

/- The predicates of a tree are those of its units. -/
theorem predicates_eq_units :
    ∀ c : Condition, c.predicates = c.units.flatMap predicates
  | .atom negated connective p => by
      simp [units, predicates]
  | .group negated connective cs => by
      rw [units, predicates]
      split
      · simp [predicates]
      · exact predicatesOf_eq_unitsOf cs

theorem predicatesOf_eq_unitsOf :
    ∀ cs : List Condition,
      predicatesOf cs = (unitsOf cs).flatMap predicates
  | [] => by simp [unitsOf, predicatesOf]
  | c :: cs => by
      rw [predicatesOf, unitsOf, List.flatMap_append,
        predicates_eq_units c, predicatesOf_eq_unitsOf cs]

end

theorem predicates_ofRows
    (rows : List (List Condition)) :
    (ofRows rows).predicates = rows.flatten.flatMap predicates := by
  have hJoined (connective : Connective) (cs : List Condition) :
      (joinAll connective cs).predicates = cs.flatMap predicates := by
    rw [predicates_eq_units, units_joinAll, List.flatMap_assoc]
    exact List.flatMap_congr fun c _ => (predicates_eq_units c).symm
  rw [ofRows, hJoined, List.flatMap_map,
    List.flatMap_congr fun row _ => hJoined .and row,
    List.flatten_eq_flatMap, List.flatMap_assoc]
  rfl

theorem predicates_enclosed
    (c : Condition)
    (flip : Bool) :
    (enclosed (c.negatedIf flip)).predicates = c.predicates := by
  cases c <;> simp [enclosed, negatedIf, predicates, predicatesOf]

------------------------------------------------------------
-- Trees That Are the Same
------------------------------------------------------------

mutual

theorem same_refl : ∀ c : Condition, c.same c = true
  | .atom negated connective p => by
      simp [same, Predicate.SameValue, Literal.sameOptional_refl]
  | .group negated connective cs => by
      simp [same, sameAll_refl cs]

theorem sameAll_refl : ∀ cs : List Condition, sameAll cs cs = true
  | [] => by simp [sameAll]
  | c :: cs => by simp [sameAll, same_refl c, sameAll_refl cs]

end

theorem same_atom_iff
    {n n' : Bool}
    {j j' : Connective}
    {p q : Predicate} :
    (atom n j p).same (atom n' j' q) = true ↔
      (n = n' ∧ j = j') ∧ p.SameValue q := by
  simp [same]

theorem same_group_iff
    {n n' : Bool}
    {j j' : Connective}
    {cs ds : List Condition} :
    (group n j cs).same (group n' j' ds) = true ↔
      (n = n' ∧ j = j') ∧ sameAll cs ds = true := by
  simp [same]

theorem same_negatedIf
    (c d : Condition)
    (flip : Bool) :
    (c.negatedIf flip).same (d.negatedIf flip) = c.same d := by
  have hFlip (n n' : Bool) :
      ((n ^^ flip) == (n' ^^ flip)) = (n == n') := by
    cases flip <;> simp
  cases c <;> cases d <;> simp [negatedIf, same, hFlip]

theorem same_enclosed
    (c d : Condition) :
    (enclosed c).same (enclosed d) = c.same d := by
  simp [enclosed, same, sameAll]

theorem length_eq_of_sameAll :
    ∀ cs ds : List Condition,
      sameAll cs ds = true → cs.length = ds.length
  | [], [], _ => rfl
  | c :: cs, d :: ds, hSame => by
      rw [sameAll, Bool.and_eq_true] at hSame
      rw [List.length_cons, List.length_cons,
        length_eq_of_sameAll cs ds hSame.2]
  | [], d :: ds, hSame => by simp [sameAll] at hSame
  | c :: cs, [], hSame => by simp [sameAll] at hSame

mutual

/-
  Trees that are the same have units that are, by the
  recursion of `same`.
-/
theorem forall₂_units_of_same :
    ∀ c d : Condition,
      c.same d = true →
        List.Forall₂ (fun u v => u.same v = true) c.units d.units
  | .atom n j p, .atom n' j' q, hSame => by
      have hBoth := same_atom_iff.mp hSame
      simpa [units, same_atom_iff] using ⟨hBoth.1.1, hBoth.2⟩
  | .group n j cs, .group n' j' ds, hSame => by
      rcases same_group_iff.mp hSame with ⟨⟨hNegated, -⟩, hAll⟩
      have hLength := length_eq_of_sameAll cs ds hAll
      by_cases hOne : cs.length = 1
      · rw [units, if_pos hOne, units, if_pos (hLength ▸ hOne)]
        exact .cons (same_group_iff.mpr ⟨⟨hNegated, rfl⟩, hAll⟩) .nil
      · rw [units, if_neg hOne, units, if_neg (hLength ▸ hOne)]
        exact forall₂_unitsOf_of_sameAll cs ds hAll
  | .atom n j p, .group n' j' ds, hSame => by simp [same] at hSame
  | .group n j cs, .atom n' j' q, hSame => by simp [same] at hSame

theorem forall₂_unitsOf_of_sameAll :
    ∀ cs ds : List Condition,
      sameAll cs ds = true →
        List.Forall₂ (fun u v => u.same v = true)
          (unitsOf cs) (unitsOf ds)
  | [], [], _ => by simp [unitsOf]
  | c :: cs, d :: ds, hSame => by
      rw [sameAll, Bool.and_eq_true] at hSame
      rw [unitsOf, unitsOf]
      exact
        List.rel_append (forall₂_units_of_same c d hSame.1)
          (forall₂_unitsOf_of_sameAll cs ds hSame.2)
  | [], d :: ds, hSame => by simp [sameAll] at hSame
  | c :: cs, [], hSame => by simp [sameAll] at hSame

end

end Condition

end SqlSelect
