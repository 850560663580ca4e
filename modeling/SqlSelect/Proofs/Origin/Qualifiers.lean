import SqlSelect.Proofs.Origin.Items

/-
  The qualifiers of the items of a list. Those of fields and
  aggregates are names of the table. The one of a star is
  kept as it is written and not looked at, so that the items
  of a list have accepted qualifiers exactly when its stars
  have.

  Main statements:
    * `Item.Origin.acceptsAny`
    * `ItemList.HasStar`
    * `ItemList.qualifiers_accepted_iff`
    * `ItemList.not_forall_qualifiers_accepted`
-/

namespace SqlSelect

------------------------------------------------------------
-- Items
------------------------------------------------------------

namespace Item

variable {env : Environment}
variable {item : Item}

theorem qualifier_content :
    item.content.qualifier = item.qualifier :=
  rfl

theorem acceptsAny_none
    (scope : Scope) :
    scope.AcceptsAny none :=
  rfl

/-
  An item that is no star has an accepted qualifier, if those
  of the select list have.
-/
theorem Origin.acceptsAny
    (hOrigin : item.Origin env)
    (hSelected :
      ∀ found, env.Selects found →
        env.scope.AcceptsAny found.qualifier) :
    env.scope.AcceptsAny item.qualifier := by
  rw [← qualifier_content]
  cases hOrigin with
  | field reference hResolves hContent =>
      rw [hContent]
      exact hResolves.accepted
  | aggregate reference function distinct hResolves hContent =>
      rw [hContent]
      exact hResolves.accepted
  | rowCount hContent =>
      rw [hContent]
      exact acceptsAny_none _
  | constant expression value hContent =>
      rw [hContent]
      exact acceptsAny_none _
  | choice expression found hRead hContent =>
      rw [hContent]
      exact acceptsAny_none _
  | selected found hSelects hContent =>
      rw [hContent]
      exact hSelected found hSelects

theorem IsField.qualifier_eq
    {schema : Schema}
    {qualifier : Option Text}
    (hField : item.IsField schema qualifier) :
    item.qualifier = qualifier := by
  rcases hField with ⟨field, -, hContent⟩
  rw [← qualifier_content, hContent]
  rfl

/- A star of a table with a field is read as some item. -/
theorem exists_mem_of_contents
    {schema : Schema}
    {qualifier : Option Text}
    {items : List Item}
    (hContents : items.map content = allFields schema qualifier)
    (hFields : schema.fields ≠ []) :
    ∃ item ∈ items, item.qualifier = qualifier := by
  have hItems : items ≠ [] := by
    rintro rfl
    exact hFields (List.map_eq_nil_iff.mp hContents.symm)
  rcases List.exists_mem_of_ne_nil items hItems with ⟨item, hMem⟩
  exact ⟨item, hMem, (isField_of_mem hContents hMem).qualifier_eq⟩

end Item

------------------------------------------------------------
-- Lists
------------------------------------------------------------

namespace ItemList

variable {env : Environment}
variable {ordered : Bool}
variable {t : Text}
variable {list : ItemList}

/- A piece of the list is a star of the qualifier. -/
def HasStar
    (ordered : Bool)
    (qualifier : Option Text)
    (t : Text) : Prop :=
  ∃ texts,
    pieces t = .ok texts ∧
      ∃ piece ∈ texts, Item.IsStar ordered qualifier piece

/- A star of a table with a field leaves its qualifier. -/
theorem exists_mem_of_hasStar
    {qualifier : Option Text}
    (hRead : ofText env ordered t = .ok list)
    (hStar : HasStar ordered qualifier t)
    (hFields : env.schema.fields ≠ []) :
    ∃ item ∈ list.items, item.qualifier = qualifier := by
  rcases reads_of_ofText hRead with ⟨texts, rows, hTexts, hItems, hReads⟩
  rcases hStar with ⟨texts', hTexts', piece, hPiece, hStar⟩
  cases hTexts.symm.trans hTexts'
  rcases Condition.exists_of_mem_forall₂ hReads.flip hPiece
    with ⟨row, hRow, hPieceReads⟩
  cases hPieceReads with
  | star found hFound hContents =>
      cases hStar.unique hFound
      rcases Item.exists_mem_of_contents hContents hFields
        with ⟨item, hMem, hQualifier⟩
      rw [hItems]
      exact
        ⟨item, List.mem_flatten_of_mem hRow hMem, hQualifier⟩
  | single item hNoStar hOrigin hRows =>
      exact absurd hStar (hNoStar qualifier)

/- An item has an accepted qualifier or that of a star. -/
theorem acceptsAny_or_hasStar
    {item : Item}
    (hSelected :
      ∀ selected, env.selected = some selected →
        ∀ item ∈ selected.items, env.scope.AcceptsAny item.qualifier)
    (hRead : ofText env ordered t = .ok list)
    (hMem : item ∈ list.items) :
    env.scope.AcceptsAny item.qualifier ∨
      env.schema.fields ≠ [] ∧ HasStar ordered item.qualifier t := by
  rcases reads_of_ofText hRead with ⟨texts, rows, hTexts, hItems, hReads⟩
  rw [hItems] at hMem
  rcases List.mem_flatten.mp hMem with ⟨row, hRow, hIn⟩
  rcases Condition.exists_of_mem_forall₂ hReads hRow
    with ⟨piece, hPiece, hPieceReads⟩
  cases hPieceReads with
  | star qualifier hStar hContents =>
      have hField := Item.isField_of_mem hContents hIn
      refine .inr ⟨?_, texts, hTexts, piece, hPiece, ?_⟩
      · rcases hField with ⟨field, hFieldMem, -⟩
        exact List.ne_nil_of_mem hFieldMem
      · rw [hField.qualifier_eq]
        exact hStar
  | single found hNoStar hOrigin hRows =>
      subst hRows
      cases List.mem_singleton.mp hIn
      refine .inl (hOrigin.acceptsAny ?_)
      rintro other ⟨selected, hList, hOther⟩
      exact hSelected selected hList other hOther

/-
  The items of a list have accepted qualifiers exactly when
  the stars have that are written in it, or when there is no
  field for a star to stand for.
-/
theorem qualifiers_accepted_iff
    (hSelected :
      ∀ selected, env.selected = some selected →
        ∀ item ∈ selected.items, env.scope.AcceptsAny item.qualifier)
    (hRead : ofText env ordered t = .ok list) :
    (∀ item ∈ list.items, env.scope.AcceptsAny item.qualifier) ↔
      env.schema.fields = [] ∨
        ∀ qualifier, HasStar ordered qualifier t →
          env.scope.AcceptsAny qualifier := by
  constructor
  · intro hAll
    by_cases hFields : env.schema.fields = []
    · exact .inl hFields
    · refine .inr fun qualifier hStar => ?_
      rcases exists_mem_of_hasStar hRead hStar hFields
        with ⟨item, hMem, rfl⟩
      exact hAll item hMem
  · intro hStars item hMem
    rcases acceptsAny_or_hasStar hSelected hRead hMem
      with hAccepted | ⟨hFields, hStar⟩
    · exact hAccepted
    · rcases hStars with hNone | hAll
      · exact absurd hNone hFields
      · exact hAll item.qualifier hStar

/- A table with an alias, and one of its fields selected. -/
def aliasedTable : Environment :=
  ⟨⟨[⟨"A".toList, .ofCategory .string⟩]⟩, ⟨some "t".toList, none⟩,
    some ⟨false, [{ source := "A".toList, type := some (.ofCategory .string) }]⟩⟩

/- A star, an aggregate and an item of the select list. -/
theorem qualifiers_accepted_iff_aliased :
    ∃ list,
      ofText aliasedTable false "T.*, COUNT(t.A), A".toList =
          .ok list ∧
        list.items.map Item.qualifier =
          [some "T".toList, some "t".toList, none] ∧
        ∀ qualifier,
          HasStar false qualifier "T.*, COUNT(t.A), A".toList →
            aliasedTable.scope.AcceptsAny qualifier := by
  have hQualifiers :
      (ofText aliasedTable false "T.*, COUNT(t.A), A".toList).map
          (fun list => list.items.map Item.qualifier) =
        .ok [some "T".toList, some "t".toList, none] := by
    decide +kernel
  rcases map_eq_ok_iff.mp hQualifiers with ⟨list, hRead, hItems⟩
  have hAll :
      ∀ qualifier ∈ list.items.map Item.qualifier,
        aliasedTable.scope.AcceptsAny qualifier := by
    rw [hItems]
    decide
  have hSelected :
      ∀ selected, aliasedTable.selected = some selected →
        ∀ item ∈ selected.items,
          aliasedTable.scope.AcceptsAny item.qualifier := by
    rintro selected ⟨⟩
    decide
  refine ⟨list, hRead, hItems, ?_⟩
  refine
    ((qualifiers_accepted_iff hSelected hRead).mp fun item hMem =>
      hAll _ (List.mem_map_of_mem hMem)).resolve_left ?_
  decide

/- Any other qualifier of a star is kept as well. -/
theorem not_forall_qualifiers_accepted :
    ¬ ∀ env ordered t list,
      env.selected = none →
        ofText env ordered t = .ok list →
          ∀ item ∈ list.items,
            env.scope.AcceptsAny item.qualifier := by
  intro hAll
  let env : Environment :=
    ⟨⟨[⟨"A".toList, .ofCategory .string⟩]⟩, ⟨none, none⟩, none⟩
  let item : Item :=
    { source := "A".toList
      qualifier := some "bogus".toList
      type := some (.ofCategory .string) }
  have hRead :
      ofText env false "bogus.*".toList = .ok ⟨false, [item]⟩ := by
    decide +kernel
  have hAccepted :=
    hAll env false _ _ rfl hRead item (List.mem_singleton_self item)
  exact absurd hAccepted (by decide)

end ItemList

end SqlSelect
