import SqlSelect.Proofs.Selection.Naming
import SqlSelect.Proofs.Selection.Pieces

/-
  Lists with directions. Behind each item of a list that is
  read there can be a direction, and the list is then read as
  an order of the same items with these directions. The one
  exception is a list whose first item is the word DISTINCT in
  front of a comma: with a direction behind it, it is the
  DISTINCT of the list and no item.

  Main statements:
    * `Item.GivesDirection`
    * `Item.cutDirection_append`
    * `Item.readItem_append`
    * `ItemList.Lists`
    * `ItemList.exists_lists`
    * `ItemList.IsOrdered`
    * `ItemList.lists_and_isOrdered_iff`
    * `ItemList.not_forall_isOrdered`
-/

namespace SqlSelect

------------------------------------------------------------
-- Cutting Off a Direction
------------------------------------------------------------

namespace Item

variable {env : Environment}
variable {e front gap word suffix t u : Text}
variable {direction : Direction}
variable {items : List Item}

/- The text behind an item gives it the direction. -/
def GivesDirection
    (suffix : Text)
    (direction : Direction) : Prop :=
  ∃ gap word,
    suffix = gap ++ word ∧ Text.IsGap gap ∧
      Text.SameWord word direction.spelling

/- The items with the direction. -/
def directed
    (direction : Direction)
    (items : List Item) : List Item :=
  items.map fun item => { item with direction := some direction }

theorem ofWord?_of_sameWord_spelling
    (hSame : Text.SameWord word direction.spelling) :
    Direction.ofWord? word = some direction := by
  have hFold : Text.foldCase word = Text.foldCase direction.spelling :=
    hSame
  simp only [Direction.ofWord?, Text.SameWord, hFold]
  cases direction <;> decide

theorem isLetters_of_sameWord_spelling
    (hSame : Text.SameWord word direction.spelling) :
    Text.IsLetters word :=
  Direction.isLetters_of_ofWord? (ofWord?_of_sameWord_spelling hSame)

/- A direction behind a text is cut off, and the text is left. -/
theorem cutDirection_append
    (hSome : e ≠ [])
    (hBalanced : Text.Balanced e)
    (hTrim : Text.trim e = e)
    (hGap : Text.IsGap gap)
    (hSame : Text.SameWord word direction.spelling) :
    cutDirection (e ++ (gap ++ word)) = .ok (e, direction) := by
  have hWord :=
    Text.isWord_of_isLetters (isLetters_of_sameWord_spelling hSame)
  have hWords :=
    Text.wordsOf_append_word hBalanced
      (Text.trailing_wordsOf hBalanced hTrim) hGap hWord
  rcases Text.exists_last_wordsOf hSome hBalanced hTrim
    with ⟨last, before, hLast, hLength⟩
  have hReverse :
      (Text.wordsOf (e ++ (gap ++ word))).words.reverse =
        word :: last :: before := by
    rw [hWords, ← hLast]
    simp [Words.words]
  rw [cutDirection, Text.topWords_eq (hWord.balanced_append hBalanced hGap)]
  simp only [Except.map, hReverse, ofWord?_of_sameWord_spelling hSame,
    hLength]
  rw [hWords, Text.through_append hBalanced hTrim]

/- What gives a direction has no comma at the top level. -/
theorem GivesDirection.isPiece
    (hGives : GivesDirection suffix direction) :
    Text.IsPiece ',' suffix := by
  rcases hGives with ⟨gap, word, rfl, hGap, hSame⟩
  have hLetters := isLetters_of_sameWord_spelling hSame
  refine
    ⟨Text.balanced_append (Text.balanced_of_isBlank hGap.2)
      (Text.isWord_of_isLetters hLetters).balanced, ?_⟩
  apply Text.noComma_of_forall
  intro c hMem
  exact
    (List.mem_append.mp hMem).imp (Text.isBlank_iff.mp hGap.2 c)
      (Text.isNameChar_of_isLetters hLetters c)

theorem GivesDirection.ne_nil
    (hGives : GivesDirection suffix direction) :
    suffix ≠ [] := by
  rcases hGives with ⟨gap, word, rfl, hGap, -⟩
  exact List.append_ne_nil_of_left_ne_nil hGap.1 word

/- It begins with a blank and ends with a letter. -/
theorem GivesDirection.head?
    (hGives : GivesDirection suffix direction) :
    suffix.head?.any SqlSelect.isBlank = true := by
  rcases hGives with ⟨gap, word, rfl, hGap, -⟩
  cases gap with
  | nil => exact absurd rfl hGap.1
  | cons c gap => exact (Text.isBlank_cons.mp hGap.2).1

theorem GivesDirection.getLast?
    (hGives : GivesDirection suffix direction) :
    suffix.getLast?.all (fun c => !SqlSelect.isBlank c) = true := by
  rcases hGives with ⟨gap, word, rfl, -, hSame⟩
  have hLetters := isLetters_of_sameWord_spelling hSame
  rw [List.getLast?_append_of_ne_nil _ hLetters.1]
  exact
    (Text.isTrimmed_of_forall fun _ hMem =>
      Text.isBlank_eq_false_of_mem hLetters hMem).2

theorem trim_ne_nil_of_readItem
    {ordered : Bool}
    (hRead : readItem env ordered t = .ok items) :
    Text.trim t ≠ [] := by
  intro hNil
  simp [readItem, hNil] at hRead

/-
  With a direction behind it the text is read as the same
  items with the direction.
-/
theorem readItem_append
    (hRead : readItem env false t = .ok items)
    (hGives : GivesDirection suffix direction) :
    readItem env true (t ++ suffix) = .ok (directed direction items) := by
  rcases hGives with ⟨gap, word, rfl, hGap, hSame⟩
  have hSome := trim_ne_nil_of_readItem hRead
  have hLetters := isLetters_of_sameWord_spelling hSame
  rcases
      Text.exists_trim_append hSome hLetters.1
        (Text.isTrimmed_of_forall fun _ hMem =>
          Text.isBlank_eq_false_of_mem hLetters hMem)
        hGap
    with ⟨gap', hGap', hTrim⟩
  have hSome' : Text.trim t ++ (gap' ++ word) ≠ [] :=
    List.append_ne_nil_of_left_ne_nil hSome _
  rw [readItem, if_neg hSome] at hRead
  rcases bind_eq_ok_iff.mp hRead
    with ⟨⟨expression, aliasName⟩, hCut, hAliased⟩
  have hDirection :=
    cutDirection_append hSome (balanced_of_cutAlias hCut)
      (Text.trim_trim t) hGap' hSame
  simp only [readItem, hTrim, if_neg hSome', hDirection, hCut, bind,
    Except.bind, if_true]
  rw [show readAliased env expression aliasName = .ok items from hAliased]
  rfl

/- Row by row, with one direction behind each of the texts. -/
theorem readItem_zipWith
    {parts suffixes : List Text}
    {directions : List Direction}
    {rows : List (List Item)}
    (hRows :
      List.Forall₂ (fun part items => readItem env false part = .ok items)
        parts rows)
    (hGive : List.Forall₂ GivesDirection suffixes directions) :
    List.Forall₂ (fun part items => readItem env true part = .ok items)
      (List.zipWith (· ++ ·) parts suffixes)
      (List.zipWith directed directions rows) := by
  induction hRows generalizing suffixes directions with
  | nil => cases hGive <;> exact .nil
  | cons hRow _ ih =>
      cases hGive with
      | nil => exact .nil
      | cons hGives hRest =>
          exact .cons (readItem_append hRow hGives) (ih hRest)

------------------------------------------------------------
-- The DISTINCT of a List
------------------------------------------------------------

/- A word in front is the DISTINCT of what follows it. -/
theorem splitDistinct_of_endsAfter
    (hFront : Text.SameWord front "DISTINCT".toList)
    (hEnds : EndsAfter t) :
    splitDistinct (front ++ t) = (true, t) := by
  have hLetters := Text.isLetters_of_sameWord hFront (by decide)
  have hStart : Text.trimStart (front ++ t) = front ++ t := by
    cases front with
    | nil => exact absurd rfl hLetters.1
    | cons c front =>
        exact
          Text.trimStart_of_head
            (Text.isBlank_eq_false_of_mem hLetters List.mem_cons_self)
  have hSkip :
      (Cursor.ofText (front ++ t)).skipBlanks =
        Cursor.ofText (front ++ t) :=
    congrArg (fun u => (⟨front ++ t, u, 0⟩ : Cursor)) hStart
  have hWords : Text.words "DISTINCT".toList = ["DISTINCT".toList] := by
    decide
  have hLength :=
    delimitedLength?_of_spelled (by decide)
      (Text.spells_singleton hFront) hEnds
  simp only [splitDistinct, Cursor.afterKeyword?, hSkip, hWords]
  simp only [Cursor.ofText, hLength, Option.map_some, List.drop_left]

/- The DISTINCT of a text is a word that ends there. -/
theorem exists_distinct_of_fst
    (hStart : Text.trimStart t = t)
    (hTrue : (splitDistinct t).1 = true) :
    ∃ front rest,
      t = front ++ rest ∧ Text.SameWord front "DISTINCT".toList ∧
        EndsAfter rest := by
  rw [splitDistinct_fst hStart, Option.isSome_iff_exists] at hTrue
  rcases hTrue with ⟨length, hFound⟩
  rcases exists_spelled_of_delimitedLength? (by decide) hFound
    with ⟨_, rest, hText, -, ⟨front, _, rfl, hSame, rfl⟩, hEnds⟩
  rw [List.append_nil] at hText
  exact ⟨front, rest, hText, hSame, hEnds⟩

/-
  Behind a first item that was no DISTINCT a blank makes it
  one exactly if it is the whole word.
-/
theorem splitDistinct_append_iff
    (hSome : t ≠ [])
    (hStart : t.head?.all (fun c => !SqlSelect.isBlank c) = true)
    (hNone : (splitDistinct (t ++ u)).1 = false)
    (hBlank : suffix.head?.any SqlSelect.isBlank = true) :
    (splitDistinct (t ++ suffix)).1 = true ↔
      Text.SameWord t "DISTINCT".toList := by
  constructor
  · intro hTrue
    have hTrimStart : Text.trimStart (t ++ suffix) = t ++ suffix := by
      cases t with
      | nil => exact absurd rfl hSome
      | cons c t => exact Text.trimStart_of_head (by simpa using hStart)
    rcases exists_distinct_of_fst hTrimStart hTrue
      with ⟨front, rest, hSplit, hFront, hEnds⟩
    have hLetters := Text.isLetters_of_sameWord hFront (by decide)
    rcases List.append_eq_append_iff.mp hSplit with
      ⟨more, rfl, hSuffix⟩ | ⟨more, rfl, hRest⟩
    · -- The word cannot go on with the blank.
      cases more with
      | nil => rwa [List.append_nil] at hFront
      | cons c more =>
          have hChar : SqlSelect.isBlank c = true := by
            simpa [hSuffix] using hBlank
          have hLetter :=
            Text.isBlank_eq_false_of_mem hLetters
              (List.mem_append_right t List.mem_cons_self)
          rw [hChar] at hLetter
          cases hLetter
    · -- If the item went on behind the word, it would have begun before.
      cases more with
      | nil => rwa [List.append_nil]
      | cons c more =>
          have hMore := List.cons_ne_nil c more
          rw [hRest, Text.endsAfter_append_iff hMore,
            ← Text.endsAfter_append_iff (t := u) hMore] at hEnds
          rw [List.append_assoc, splitDistinct_of_endsAfter hFront hEnds]
            at hNone
          cases hNone
  · intro hSame
    rw [splitDistinct_of_endsAfter hSame
      (Text.endsAfter_of_startsBlank
        (Text.startsBlank_of_head hBlank))]

end Item

------------------------------------------------------------
-- Orders of a List
------------------------------------------------------------

namespace ItemList

open Item (GivesDirection directed splitDistinct)

/-
  The text lists the parts, with commas between them, behind
  DISTINCT or nothing. There is an item in it.
-/
structure Lists
    (t front : Text)
    (parts : List Text)
    (distinct : Bool) : Prop where
  text : Text.trim t = front ++ Text.join [','] parts
  front :
    if distinct then Text.SameWord front "DISTINCT".toList
    else front = []
  pieces : ∀ part ∈ parts, Text.IsPiece ',' part
  some : ¬ Text.IsBlank (Text.join [','] parts)

/- The text of the list with something behind each part. -/
def written
    (front : Text)
    (parts suffixes : List Text) : Text :=
  front ++ Text.join [','] (List.zipWith (· ++ ·) parts suffixes)

/-
  With the directions behind its parts the list is read as an
  order. It has the same items but for the directions, and
  those of a part have the direction behind this part.
-/
def IsOrdered
    (env : Environment)
    (list : ItemList)
    (front : Text)
    (parts suffixes : List Text)
    (directions : List Direction) : Prop :=
  ∃ rows,
    List.Forall₂
        (fun part items => Item.readItem env false part = .ok items)
        parts rows ∧
      list.items = rows.flatten ∧
      ofText env true (written front parts suffixes) =
        .ok
          { distinct := list.distinct
            items := (List.zipWith directed directions rows).flatten }

variable {env : Environment}
variable {ordered : Bool}
variable {t front : Text}
variable {parts suffixes : List Text}
variable {directions : List Direction}
variable {list : ItemList}
variable {distinct : Bool}

theorem trimStart_trim
    (t : Text) :
    Text.trimStart (Text.trim t) = Text.trim t := by
  have hHead := (Text.isTrimmed_trim t).1
  cases hTrim : Text.trim t with
  | nil => rfl
  | cons c u =>
      rw [hTrim] at hHead
      exact Text.trimStart_of_head (by simpa using hHead)

theorem Lists.parts_ne_nil
    (hLists : Lists t front parts distinct) :
    parts ≠ [] := by
  rintro rfl
  exact hLists.some Text.isBlank_nil

/- The parts can stand behind the DISTINCT of the list. -/
theorem Lists.endsAfter
    (hLists : Lists t front parts true)
    (hDistinct : (splitDistinct (Text.trim t)).1 = true) :
    EndsAfter (Text.join [','] parts) := by
  rcases Item.exists_distinct_of_fst (trimStart_trim t) hDistinct
    with ⟨front', rest, hSplit, hSame, hEnds⟩
  rw [hLists.text] at hSplit
  have hLength : front.length = front'.length :=
    (Text.length_eq_of_sameWord hLists.front).trans
      (Text.length_eq_of_sameWord hSame).symm
  rwa [(List.append_inj hSplit hLength).2]

/- The parts are what is behind the DISTINCT of the list. -/
theorem Lists.splitDistinct_eq
    (hLists : Lists t front parts distinct)
    (hDistinct : (splitDistinct (Text.trim t)).1 = distinct) :
    splitDistinct (Text.trim t) = (distinct, Text.join [','] parts) := by
  have hFront := hLists.front
  cases distinct with
  | false =>
      simp only [Bool.false_eq_true, if_false] at hFront
      rw [Item.splitDistinct_of_fst hDistinct, hLists.text, hFront]
      rfl
  | true =>
      rw [hLists.text]
      exact
        Item.splitDistinct_of_endsAfter hFront
          (hLists.endsAfter hDistinct)

/- A list is read part by part. -/
theorem ofText_eq_of_splitDistinct
    (hSplit :
      splitDistinct (Text.trim t) = (distinct, Text.join [','] parts))
    (hSome : ¬ Text.IsBlank (Text.join [','] parts))
    (hPieces : ∀ part ∈ parts, Text.IsPiece ',' part) :
    ofText env ordered t =
      (parts.mapM (Item.readItem env ordered)).map fun rows =>
        ⟨distinct, rows.flatten⟩ := by
  have hNotNil : parts ≠ [] := by
    rintro rfl
    exact hSome Text.isBlank_nil
  rw [ofText, hSplit]
  simp only [if_neg hSome, Text.splitTop_join (by decide) hNotNil hPieces,
    bind, Except.bind]
  cases parts.mapM (Item.readItem env ordered) <;> rfl

/- A list that is read with an item in it lists some parts. -/
theorem exists_lists
    (hRead : ofText env ordered t = .ok list)
    (hSome : ¬ Text.IsBlank (splitDistinct (Text.trim t)).2) :
    ∃ front parts, Lists t front parts list.distinct := by
  have hDistinct := Item.distinct_of_ofText hRead
  have hBalanced : Text.Balanced (splitDistinct (Text.trim t)).2 := by
    by_contra hNot
    simp [ofText, hSome, Text.splitTop, Text.marked_eq, hNot,
      Except.map, bind, Except.bind] at hRead
  rcases Text.exists_join ',' hBalanced with ⟨parts, hJoin, hPieces⟩
  cases hList : list.distinct with
  | false =>
      rw [hList] at hDistinct
      have hWhole := Item.splitDistinct_of_fst hDistinct.symm
      rw [hWhole] at hJoin hSome
      exact
        ⟨[], parts,
          { text := hJoin
            front := rfl
            pieces := hPieces
            some := hJoin ▸ hSome }⟩
  | true =>
      rw [hList] at hDistinct
      rcases
          Item.exists_distinct_of_fst (trimStart_trim t) hDistinct.symm
        with ⟨front, rest, hSplit, hSame, hEnds⟩
      rw [hSplit, Item.splitDistinct_of_endsAfter hSame hEnds]
        at hJoin hSome
      exact
        ⟨front, parts,
          { text := hJoin ▸ hSplit
            front := hSame
            pieces := hPieces
            some := hJoin ▸ hSome }⟩

theorem exists_of_mem_zipWith
    {piece : Text}
    (hGive : List.Forall₂ GivesDirection suffixes directions)
    (hMem : piece ∈ List.zipWith (· ++ ·) parts suffixes) :
    ∃ part ∈ parts, ∃ suffix direction,
      GivesDirection suffix direction ∧ piece = part ++ suffix := by
  rw [← List.map_uncurry_zip_eq_zipWith] at hMem
  rcases List.mem_map.mp hMem with ⟨⟨part, suffix⟩, hZip, rfl⟩
  rcases List.of_mem_zip hZip with ⟨hPart, hSuffix⟩
  rcases Condition.exists_of_mem_forall₂ hGive.flip hSuffix
    with ⟨direction, -, hGives⟩
  exact ⟨part, hPart, suffix, direction, hGives, rfl⟩

/- The text with directions begins like the list. -/
theorem exists_written_cons
    (front first suffix : Text)
    (parts suffixes : List Text) :
    ∃ behind,
      written front (first :: parts) (suffix :: suffixes) =
        front ++ (first ++ (suffix ++ behind)) := by
  rcases
      Text.exists_join_cons [','] (first ++ suffix)
        (List.zipWith (· ++ ·) parts suffixes)
    with ⟨behind, hJoin, -⟩
  refine ⟨behind, ?_⟩
  rw [written, List.zipWith_cons_cons, hJoin, List.append_assoc]

theorem ne_nil_of_trim
    (hSome : Text.trim t ≠ []) :
    t ≠ [] := by
  rintro rfl
  exact hSome rfl

theorem Lists.isTrimmed_written
    (hLists : Lists t front parts distinct)
    (hSome : ∀ part ∈ parts, Text.trim part ≠ [])
    (hGive : List.Forall₂ GivesDirection suffixes directions)
    (hLength : suffixes.length = parts.length) :
    Text.IsTrimmed (written front parts suffixes) := by
  have hHead := (Text.isTrimmed_trim t).1
  rcases parts with _ | ⟨first, parts⟩
  · exact absurd rfl hLists.parts_ne_nil
  rcases suffixes with _ | ⟨suffix, suffixes⟩
  · cases hLength
  have hFirst := ne_nil_of_trim (hSome first List.mem_cons_self)
  constructor
  · -- The text begins as it did before.
    rcases Text.exists_join_cons [','] first parts
      with ⟨behind, hJoin, -⟩
    rcases exists_written_cons front first suffix parts suffixes
      with ⟨behind', hWritten⟩
    rw [hLists.text, hJoin, ← List.append_assoc] at hHead
    rw [hWritten, ← List.append_assoc]
    have hBoth := List.append_ne_nil_of_right_ne_nil front hFirst
    rw [List.head?_append_of_ne_nil _ hBoth] at hHead ⊢
    exact hHead
  · -- It ends with the last of the directions.
    have hPieces :
        ∀ piece ∈
          List.zipWith (· ++ ·) (first :: parts) (suffix :: suffixes),
          piece ≠ [] := by
      intro piece hMem
      rcases exists_of_mem_zipWith hGive hMem
        with ⟨part, -, suffix, direction, hGives, rfl⟩
      exact List.append_ne_nil_of_right_ne_nil part hGives.ne_nil
    have hNotNil :
        List.zipWith (· ++ ·) (first :: parts) (suffix :: suffixes) ≠
          [] := List.cons_ne_nil _ _
    have hLast := Text.getLast?_join [','] hPieces hNotNil
    rcases exists_of_mem_zipWith hGive (List.getLast_mem hNotNil)
      with ⟨part, -, last, direction, hGives, hPiece⟩
    rw [hPiece, List.getLast?_append_of_ne_nil _ hGives.ne_nil] at hLast
    have hJoined :
        Text.join [',']
            (List.zipWith (· ++ ·) (first :: parts)
              (suffix :: suffixes)) ≠ [] := by
      intro hNil
      rw [hNil, List.getLast?_nil, eq_comm, List.getLast?_eq_none_iff]
        at hLast
      exact hGives.ne_nil hLast
    rw [written, List.getLast?_append_of_ne_nil _ hJoined, hLast]
    exact hGives.getLast?

/- With directions behind its parts the text lists these. -/
theorem Lists.lists_written
    (hLists : Lists t front parts distinct)
    (hSome : ∀ part ∈ parts, Text.trim part ≠ [])
    (hGive : List.Forall₂ GivesDirection suffixes directions)
    (hLength : suffixes.length = parts.length) :
    Lists (written front parts suffixes) front
      (List.zipWith (· ++ ·) parts suffixes) distinct where
  text :=
    Text.trim_eq_of_isTrimmed
      (hLists.isTrimmed_written hSome hGive hLength)
  front := hLists.front
  pieces := by
    intro piece hMem
    rcases exists_of_mem_zipWith hGive hMem
      with ⟨part, hPart, suffix, direction, hGives, rfl⟩
    exact (hLists.pieces part hPart).append hGives.isPiece
  some := by
    rcases parts with _ | ⟨first, parts⟩
    · exact absurd rfl hLists.parts_ne_nil
    rcases suffixes with _ | ⟨suffix, suffixes⟩
    · cases hLength
    rcases
        Text.exists_join_cons [','] (first ++ suffix)
          (List.zipWith (· ++ ·) parts suffixes)
      with ⟨behind, hJoin, -⟩
    rw [List.zipWith_cons_cons, hJoin, List.append_assoc,
      Text.isBlank_append]
    rintro ⟨hBlank, -⟩
    exact
      hSome first List.mem_cons_self (Text.trim_eq_nil_iff.mpr hBlank)

/- The first item is the word DISTINCT, and none is in front. -/
def BeginsWithDistinct
    (parts : List Text)
    (distinct : Bool) : Prop :=
  distinct = false ∧
    ∃ part ∈ parts.head?, Text.SameWord part "DISTINCT".toList

/-
  Whether DISTINCT begins the text stays the same if no item
  becomes the DISTINCT.
-/
theorem Lists.splitDistinct_written_iff
    (hLists : Lists t front parts distinct)
    (hDistinct : (splitDistinct (Text.trim t)).1 = distinct)
    (hSome : ∀ part ∈ parts, Text.trim part ≠ [])
    (hGive : List.Forall₂ GivesDirection suffixes directions)
    (hLength : suffixes.length = parts.length) :
    (splitDistinct (written front parts suffixes)).1 = distinct ↔
      ¬ BeginsWithDistinct parts distinct := by
  have hFront := hLists.front
  have hHead := (Text.isTrimmed_trim t).1
  rcases parts with _ | ⟨first, parts⟩
  · exact absurd rfl hLists.parts_ne_nil
  rcases hGive with _ | ⟨hGives, hGive⟩
  · cases hLength
  rename_i suffix direction suffixes directions
  have hFirst := ne_nil_of_trim (hSome first List.mem_cons_self)
  rcases Text.exists_join_cons [','] first parts with ⟨behind, hJoin, -⟩
  rcases exists_written_cons front first suffix parts suffixes
    with ⟨behind', hWritten⟩
  rw [hWritten]
  cases distinct with
  | true =>
      have hEnds := hLists.endsAfter hDistinct
      rw [hJoin, Text.endsAfter_append_iff hFirst,
        ← Text.endsAfter_append_iff (t := suffix ++ behind') hFirst]
        at hEnds
      simp [Item.splitDistinct_of_endsAfter hFront hEnds,
        BeginsWithDistinct]
  | false =>
      have hNil : front = [] := hFront
      rw [hLists.text, hJoin, hNil, List.nil_append] at hDistinct hHead
      rw [List.head?_append_of_ne_nil _ hFirst] at hHead
      have hBlank :
          (suffix ++ behind').head?.any SqlSelect.isBlank = true := by
        rw [List.head?_append_of_ne_nil _ hGives.ne_nil]
        exact hGives.head?
      have hIff :=
        Item.splitDistinct_append_iff hFirst hHead hDistinct hBlank
      rw [hNil, List.nil_append, ← Bool.not_eq_true, hIff]
      simp [BeginsWithDistinct]

/-
  A list that is read is one of an order with the directions,
  unless it begins with the word DISTINCT as an item.
-/
theorem isOrdered_iff
    (hRead : ofText env false t = .ok list)
    (hLists : Lists t front parts list.distinct)
    (hGive : List.Forall₂ GivesDirection suffixes directions)
    (hLength : suffixes.length = parts.length) :
    IsOrdered env list front parts suffixes directions ↔
      ¬ BeginsWithDistinct parts list.distinct := by
  have hDistinct := (Item.distinct_of_ofText hRead).symm
  have hParts := hRead
  rw [ofText_eq_of_splitDistinct (hLists.splitDistinct_eq hDistinct)
    hLists.some hLists.pieces] at hParts
  rcases map_eq_ok_iff.mp hParts with ⟨rows, hMap, hList⟩
  have hRows := Condition.mapM_eq_ok_iff.mp hMap
  have hSome : ∀ part ∈ parts, Text.trim part ≠ [] := by
    intro part hMem
    rcases Condition.exists_of_mem_forall₂ hRows.flip hMem
      with ⟨items, -, hItem⟩
    exact Item.trim_ne_nil_of_readItem hItem
  have hWritten := hLists.lists_written hSome hGive hLength
  rw [← hLists.splitDistinct_written_iff hDistinct hSome hGive hLength]
  have hTrim :
      Text.trim (written front parts suffixes) =
        written front parts suffixes :=
    hWritten.text
  constructor
  · rintro ⟨_, -, -, hOrder⟩
    have hFirst := Item.distinct_of_ofText hOrder
    rw [hTrim] at hFirst
    exact hFirst.symm
  · intro hFirst
    rw [← hTrim] at hFirst
    refine ⟨rows, hRows, congrArg ItemList.items hList.symm, ?_⟩
    rw [ofText_eq_of_splitDistinct (hWritten.splitDistinct_eq hFirst)
      hWritten.some hWritten.pieces,
      Condition.mapM_eq_ok_iff.mpr (Item.readItem_zipWith hRows hGive)]
    rfl

/-
  A list that is read and has an item lists some parts. With
  every choice of directions behind them it is one of an
  order, unless it begins with the word DISTINCT as an item.
-/
theorem lists_and_isOrdered_iff
    (hRead : ofText env false t = .ok list)
    (hSome : ¬ Text.IsBlank (splitDistinct (Text.trim t)).2) :
    (∃ front parts, Lists t front parts list.distinct) ∧
      ∀ front parts suffixes directions,
        Lists t front parts list.distinct →
          List.Forall₂ GivesDirection suffixes directions →
          suffixes.length = parts.length →
          (IsOrdered env list front parts suffixes directions ↔
            ¬ BeginsWithDistinct parts list.distinct) :=
  ⟨exists_lists hRead hSome,
    fun _ _ _ _ hLists hGive hLength =>
      isOrdered_iff hRead hLists hGive hLength⟩

/- A table whose first field goes by the name given. -/
def namedTable
    (name : Text) : Environment :=
  ⟨⟨[⟨name, .ofCategory .string⟩, ⟨"A".toList, .ofCategory .string⟩]⟩,
    ⟨none, none⟩, none⟩

/- A star and a field under an alias, each row once. -/
theorem lists_and_isOrdered_star :
    ∃ list,
      ofText (namedTable "ASC".toList) false
          "distinct *, A as asc ".toList = .ok list ∧
        (∃ front parts,
          Lists "distinct *, A as asc ".toList front parts
            list.distinct) ∧
        IsOrdered (namedTable "ASC".toList) list "distinct".toList
          [" *".toList, " A as asc".toList]
          [" desc".toList, "  Asc".toList] [.descending, .ascending] := by
  have hDistinct :
      (ofText (namedTable "ASC".toList) false
          "distinct *, A as asc ".toList).map ItemList.distinct =
        .ok true := by
    decide +kernel
  rcases map_eq_ok_iff.mp hDistinct with ⟨list, hRead, hTrue⟩
  have hLists :
      Lists "distinct *, A as asc ".toList "distinct".toList
        [" *".toList, " A as asc".toList] list.distinct := by
    rw [hTrue]
    exact
      { text := by decide
        front := by decide
        pieces := by decide
        some := by decide }
  have hGive :
      List.Forall₂ GivesDirection [" desc".toList, "  Asc".toList]
        [.descending, .ascending] :=
    .cons ⟨" ".toList, "desc".toList, by decide⟩
      (.cons ⟨"  ".toList, "Asc".toList, by decide⟩ .nil)
  rcases lists_and_isOrdered_iff hRead (by decide) with ⟨hExists, hAll⟩
  refine ⟨list, hRead, hExists, (hAll _ _ _ _ hLists hGive rfl).mpr ?_⟩
  rw [hTrue]
  exact nofun

/-
  A field can go by the name DISTINCT, which no direction can
  follow at the beginning of a list.
-/
theorem not_forall_isOrdered :
    ofText (namedTable "DISTINCT".toList) true
        "DISTINCT ASC, A ASC".toList =
      .error (.unknownField "ASC".toList) ∧
      ¬ ∀ env t list front parts suffixes directions,
        ofText env false t = .ok list →
          Lists t front parts list.distinct →
          List.Forall₂ GivesDirection suffixes directions →
          suffixes.length = parts.length →
          IsOrdered env list front parts suffixes directions := by
  have hOrder :
      ofText (namedTable "DISTINCT".toList) true
          "DISTINCT ASC, A ASC".toList =
        .error (.unknownField "ASC".toList) := by
    decide +kernel
  refine ⟨hOrder, fun hAll => ?_⟩
  have hDistinct :
      (ofText (namedTable "DISTINCT".toList) false
          "DISTINCT, A".toList).map ItemList.distinct =
        .ok false := by
    decide +kernel
  rcases map_eq_ok_iff.mp hDistinct with ⟨list, hRead, hFalse⟩
  have hLists :
      Lists "DISTINCT, A".toList [] ["DISTINCT".toList, " A".toList]
        list.distinct := by
    rw [hFalse]
    exact
      { text := by decide
        front := rfl
        pieces := by decide
        some := by decide }
  have hGives : GivesDirection " ASC".toList .ascending :=
    ⟨" ".toList, "ASC".toList, by decide⟩
  rcases
      hAll _ _ list _ _ [" ASC".toList, " ASC".toList] _ hRead hLists
        (.cons hGives (.cons hGives .nil)) rfl
    with ⟨rows, -, -, hWritten⟩
  have hText :
      written [] ["DISTINCT".toList, " A".toList]
          [" ASC".toList, " ASC".toList] =
        "DISTINCT ASC, A ASC".toList := by
    decide
  rw [hText, hOrder] at hWritten
  cases hWritten

end ItemList

end SqlSelect
