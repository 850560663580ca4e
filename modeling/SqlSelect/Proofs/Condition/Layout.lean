import Mathlib.Data.List.Forall2
import SqlSelect.Condition.Reading
import SqlSelect.Proofs.Cursor.Walk

/-
  The layout of a condition: the rows between occurrences of
  OR, and in each row the parts between occurrences of AND.
  A condition is read part by part, and the layout of texts
  that are joined with a keyword is put together from the
  layouts of the texts.

  Main statements:
    * `Condition.layout`
    * `Text.exists_cutOf_joint`
    * `Condition.readAll_eq_ok_iff`
    * `Condition.layout_or`
    * `Condition.layout_and`
    * `Condition.layout_of_isPart`
-/

namespace SqlSelect

------------------------------------------------------------
-- Lists Glued Together
------------------------------------------------------------

/-
  One list behind another, with the last element of the first
  and the first element of the second made one.
-/
def glue
    {α : Type}
    (join : α → α → α) : List α → List α → List α
  | [], bs => bs
  | [a], [] => [a]
  | [a], b :: bs => join a b :: bs
  | a :: a' :: as, bs => a :: glue join (a' :: as) bs

theorem glue_cons
    {α : Type}
    {join : α → α → α}
    {as : List α}
    (a : α)
    (bs : List α)
    (hNotNil : as ≠ []) :
    glue join (a :: as) bs = a :: glue join as bs := by
  cases as with
  | nil => exact absurd rfl hNotNil
  | cons a' as => rfl

/- The first element of the second list may be put together. -/
theorem glue_of_head
    {α : Type}
    {join : α → α → α}
    {as : List α}
    {f : α → α}
    {b : α}
    {bs : List α}
    (hNotNil : as ≠ []) :
    glue join as (f b :: bs) =
      glue (fun u v => join u (f v)) as (b :: bs) := by
  induction as with
  | nil => exact absurd rfl hNotNil
  | cons a as ih =>
      cases as with
      | nil => rfl
      | cons a' as =>
          simp only [glue, ih (List.cons_ne_nil a' as)]

/- What is done to all elements is done before or after. -/
theorem map_glue
    {α β : Type}
    {join : α → α → α}
    {join' : β → β → β}
    {f : α → β}
    {as bs : List α}
    (hJoin :
      ∀ a ∈ as, ∀ b ∈ bs, f (join a b) = join' (f a) (f b)) :
    (glue join as bs).map f =
      glue join' (as.map f) (bs.map f) := by
  induction as with
  | nil => rfl
  | cons a as ih =>
      cases as with
      | nil =>
          cases bs with
          | nil => rfl
          | cons b bs =>
              simp [glue, hJoin a List.mem_cons_self b
                List.mem_cons_self]
      | cons a' as =>
          have hRest :=
            ih fun x hX => hJoin x (List.mem_cons_of_mem a hX)
          simp only [List.map_cons] at hRest ⊢
          simp [glue, hRest]

/-
  An element that is lost in the last of the first list
  leaves one list behind the other.
-/
theorem map_glue_of_absorbed
    {α β : Type}
    {join : α → α → α}
    {f : α → β}
    {as : List α}
    {b : α}
    (bs : List α)
    (hNotNil : as ≠ [])
    (hAbsorbed : ∀ a ∈ as, f (join a b) = f a) :
    (glue join as (b :: bs)).map f = as.map f ++ bs.map f := by
  induction as with
  | nil => exact absurd rfl hNotNil
  | cons a as ih =>
      cases as with
      | nil => simp [glue, hAbsorbed a List.mem_cons_self]
      | cons a' as =>
          have hRest :=
            ih (List.cons_ne_nil a' as) fun x hX =>
              hAbsorbed x (List.mem_cons_of_mem a hX)
          simp only [glue, List.map_cons, List.cons_append]
            at hRest ⊢
          rw [hRest]

namespace Cut

/- The pieces of two cuts, one behind the other. -/
theorem pieces_append
    (a b : Cut) :
    (append a b).pieces =
      glue (fun s t => s ++ t) a.pieces b.pieces := by
  rcases a with ⟨head, tail⟩
  induction tail generalizing head with
  | nil => rfl
  | cons first rest ih =>
      rcases first with ⟨keyword, after⟩
      have hRest := ih after
      simp only [append, pieces, List.foldr_cons, occurrence,
        prepend, List.map_cons] at hRest ⊢
      rw [glue_cons _ _ (List.cons_ne_nil _ _), ← hRest]
      simp

theorem pieces_ne_nil
    (a : Cut) :
    a.pieces ≠ [] :=
  List.cons_ne_nil _ _

end Cut

------------------------------------------------------------
-- Keywords between Texts
------------------------------------------------------------

namespace Text

/- The text is a spelling of the word between blanks. -/
def IsJoint
    (word joint : Text) : Prop :=
  ∃ b k b',
    joint = b ++ (k ++ b') ∧ (b ≠ [] ∧ IsBlank b) ∧
      (b' ≠ [] ∧ IsBlank b') ∧ SameWord k word

variable {word joint s t : Text}

theorem IsJoint.startsBlank
    (hJoint : IsJoint word joint)
    (t : Text) :
    StartsBlank (joint ++ t) := by
  rcases hJoint with ⟨b, k, b', rfl, ⟨hNotNil, hBlank⟩, -, -⟩
  rw [List.append_assoc]
  exact startsBlank_append _ hNotNil hBlank

theorem IsJoint.balanced
    (hWord : IsLetters word)
    (hJoint : IsJoint word joint) :
    Balanced joint := by
  rcases hJoint with ⟨b, k, b', rfl, hFront, hBehind, hSame⟩
  have hSpelled : Spells [word] k := spells_singleton hSame
  exact balanced_append (balanced_of_isBlank hFront.2)
    (balanced_append
      (balanced_of_plain
        (plain_of_spells (by simpa using hWord) hSpelled))
      (balanced_of_isBlank hBehind.2))

/- The pieces of texts that are joined with a single word. -/
theorem cutOf_append_of_single
    (hWord : IsLetters word)
    (hFirst : Balanced s)
    (hSecond : Balanced t)
    (hSeam : s ≠ [] → Seam s t) :
    cutOf [word] (s ++ t) =
      Cut.append (cutOf [word] s) (cutOf [word] t) :=
  cutOf_append (by simpa using hWord) hFirst hSecond hSeam
    (fun _ h => absurd h List.not_mem_nil)

/-
  The cut of a text behind a joint. Here `f` is what a spelling
  of the word in front makes of the cut.
-/
theorem exists_cutOf_joint
    {other : Text}
    {f : Text → Cut → Cut}
    (hWord : IsLetters word)
    (hOther : IsLetters other)
    (hJoint : IsJoint other joint)
    (hBalanced : Balanced t)
    (hKeyword :
      ∀ k u,
        Spells [other] k → Balanced u → StartsBlank u →
          cutOf [word] (k ++ u) = f k (cutOf [word] u)) :
    ∃ b k b',
      joint = b ++ (k ++ b') ∧ IsBlank b ∧ IsBlank b' ∧
        cutOf [word] (joint ++ t) =
          Cut.prepend b (f k (Cut.prepend b' (cutOf [word] t))) := by
  rcases hJoint with ⟨b, k, b', rfl, hFront, hBehind, hSame⟩
  have hWords : ∀ w ∈ [word], IsLetters w := by
    simpa using hWord
  have hSpells : Spells [other] k := spells_singleton hSame
  have hRest : Balanced (b' ++ t) :=
    balanced_append (balanced_of_isBlank hBehind.2) hBalanced
  have hWhole : Balanced (k ++ (b' ++ t)) :=
    balanced_append
      (balanced_of_plain
        (plain_of_spells (by simpa using hOther) hSpells))
      hRest
  refine ⟨b, k, b', rfl, hFront.2, hBehind.2, ?_⟩
  rw [List.append_assoc, List.append_assoc,
    cutOf_blank_append hWords hFront.2 hWhole,
    hKeyword k _ hSpells hRest
      (startsBlank_append t hBehind.1 hBehind.2),
    cutOf_blank_append hWords hBehind.2 hBalanced]

/- A joint of another word is a part of the text behind it. -/
theorem cutOf_otherJoint
    {other : Text}
    (hWord : IsLetters word)
    (hOther : IsLetters other)
    (hInitial : initial word ≠ initial other)
    (hJoint : IsJoint other joint)
    (hBalanced : Balanced t) :
    cutOf [word] (joint ++ t) =
      Cut.prepend joint (cutOf [word] t) := by
  rcases
      exists_cutOf_joint hWord hOther hJoint hBalanced
        fun k u hSpells hBehind hBlank =>
          cutOf_otherKeyword_append (by simpa using hWord)
            (by simpa using hOther) (by simpa using hInitial) hSpells
            hBehind hBlank
    with ⟨b, k, b', rfl, -, -, hCut⟩
  rw [hCut, Cut.prepend_prepend, Cut.prepend_prepend,
    List.append_assoc]

/-
  Blanks are no part of the first piece. Here `f` is anything
  that does not tell a piece from the piece with blanks.
-/
theorem map_pieces_blank_append
    {β : Type}
    {f : Text → β}
    {b : Text}
    (hWord : IsLetters word)
    (hBlank : IsBlank b)
    (hBalanced : Balanced t)
    (hLeft : ∀ u, Balanced u → f (b ++ u) = f u) :
    (cutOf [word] (b ++ t)).pieces.map f =
      (cutOf [word] t).pieces.map f := by
  have hWords : ∀ w ∈ [word], IsLetters w := by
    simpa using hWord
  have hHead := (balances_cutOf hWords hBalanced).head
  rw [cutOf_blank_append hWords hBlank hBalanced]
  simp [Cut.pieces, Cut.prepend, hLeft _ hHead]

theorem map_pieces_append_blank
    {β : Type}
    {f : Text → β}
    {b : Text}
    (hWord : IsLetters word)
    (hBlank : IsBlank b)
    (hBalanced : Balanced t)
    (hRight : ∀ u, Balanced u → f (u ++ b) = f u) :
    (cutOf [word] (t ++ b)).pieces.map f =
      (cutOf [word] t).pieces.map f := by
  have hWords : ∀ w ∈ [word], IsLetters w := by
    simpa using hWord
  have hSeam := seam_of_startsBlank t (startsBlank_of_isBlank hBlank)
  have hPieces : (⟨b, []⟩ : Cut).pieces = [b] := rfl
  rw [cutOf_append_of_single hWord hBalanced
      (balanced_of_isBlank hBlank) fun _ => hSeam,
    isFree_of_isBlank hWords hBlank, Cut.pieces_append,
    hPieces,
    map_glue_of_absorbed [] (Cut.pieces_ne_nil _)
      fun u hMem => hRight u
        (balanced_of_mem_pieces hWords hBalanced hMem)]
  simp

/- The pieces of two texts joined with the word. -/
theorem map_pieces_joint
    {β : Type}
    {f : Text → β}
    (hWord : IsLetters word)
    (hJoint : IsJoint word joint)
    (hFirst : Balanced s)
    (hSecond : Balanced t)
    (hBlanks :
      ∀ b u, IsBlank b → Balanced u →
        f (b ++ u) = f u ∧ f (u ++ b) = f u) :
    (cutOf [word] (s ++ (joint ++ t))).pieces.map f =
      (cutOf [word] s).pieces.map f ++
        (cutOf [word] t).pieces.map f := by
  have hWords : ∀ w ∈ [word], IsLetters w := by
    simpa using hWord
  have hHead := (balances_cutOf hWords hSecond).head
  rcases
      exists_cutOf_joint hWord hWord hJoint hSecond
        fun k u hSpells hBehind hStarts =>
          cutOf_spelled hWords hSpells hBehind hStarts
    with ⟨b, k, b', -, hBlank, hBlank', hCut⟩
  rw [cutOf_append_of_single hWord hFirst
      (balanced_append (hJoint.balanced hWord) hSecond)
      (fun _ => seam_of_startsBlank s (hJoint.startsBlank t)),
    hCut, Cut.pieces_append]
  have hPieces :
      (Cut.prepend b
        (Cut.occurrence k
          (Cut.prepend b' (cutOf [word] t)))).pieces =
        b :: (b' ++ (cutOf [word] t).head) ::
          (cutOf [word] t).tail.map Prod.snd := by
    simp [Cut.pieces, Cut.prepend, Cut.occurrence]
  rw [hPieces,
    map_glue_of_absorbed _ (Cut.pieces_ne_nil _)
      fun u hMem => (hBlanks b u hBlank
        (balanced_of_mem_pieces hWords hFirst hMem)).2]
  simp [Cut.pieces, (hBlanks b' _ hBlank' hHead).1]

/- The pieces of two texts joined with another word. -/
theorem map_pieces_otherJoint
    {β : Type}
    {f : Text → β}
    {join : β → β → β}
    {other : Text}
    (hWord : IsLetters word)
    (hOther : IsLetters other)
    (hInitial : initial word ≠ initial other)
    (hJoint : IsJoint other joint)
    (hFirst : Balanced s)
    (hSecond : Balanced t)
    (hJoin :
      ∀ u v, Balanced u → Balanced v →
        f (u ++ (joint ++ v)) = join (f u) (f v)) :
    (cutOf [word] (s ++ (joint ++ t))).pieces.map f =
      glue join ((cutOf [word] s).pieces.map f)
        ((cutOf [word] t).pieces.map f) := by
  have hWords : ∀ w ∈ [word], IsLetters w := by
    simpa using hWord
  rw [cutOf_append_of_single hWord hFirst
      (balanced_append (hJoint.balanced hOther) hSecond)
      (fun _ => seam_of_startsBlank s (hJoint.startsBlank t)),
    cutOf_otherJoint hWord hOther hInitial hJoint hSecond,
    Cut.pieces_append]
  have hPieces :
      (Cut.prepend joint (cutOf [word] t)).pieces =
        (joint ++ (cutOf [word] t).head) ::
          (cutOf [word] t).tail.map Prod.snd := rfl
  rw [hPieces, glue_of_head (Cut.pieces_ne_nil _)]
  exact map_glue fun u hU v hV =>
    hJoin u v (balanced_of_mem_pieces hWords hFirst hU)
      (balanced_of_mem_pieces hWords hSecond hV)

end Text

------------------------------------------------------------
-- The Layout of a Text
------------------------------------------------------------

namespace Condition

theorem isLetters_not :
    Text.IsLetters "NOT".toList := by
  decide

theorem isLetters_and :
    Text.IsLetters "AND".toList := by
  decide

theorem isLetters_or :
    Text.IsLetters "OR".toList := by
  decide

theorem words_not :
    Text.words "NOT".toList = ["NOT".toList] := by
  decide

theorem words_and :
    Text.words "AND".toList = ["AND".toList] := by
  decide

theorem words_or :
    Text.words "OR".toList = ["OR".toList] := by
  decide

/- The trimmed parts of a text between occurrences of AND. -/
def row
    (t : Text) : List Text :=
  (Text.cutOf ["AND".toList] t).pieces.map Text.trim

/- The rows of a text between occurrences of OR. -/
def layout
    (t : Text) : List (List Text) :=
  (Text.cutOf ["OR".toList] t).pieces.map row

variable {s t joint : Text}

theorem row_blank_append
    {b : Text}
    (hBlank : Text.IsBlank b)
    (hBalanced : Text.Balanced t) :
    row (b ++ t) = row t :=
  Text.map_pieces_blank_append isLetters_and hBlank hBalanced
    fun u _ => Text.trim_append_left u hBlank

theorem row_append_blank
    {b : Text}
    (hBlank : Text.IsBlank b)
    (hBalanced : Text.Balanced t) :
    row (t ++ b) = row t :=
  Text.map_pieces_append_blank isLetters_and hBlank hBalanced
    fun u _ => Text.trim_append_right u hBlank

/- AND makes one row of two. -/
theorem row_and
    (hJoint : Text.IsJoint "AND".toList joint)
    (hFirst : Text.Balanced s)
    (hSecond : Text.Balanced t) :
    row (s ++ (joint ++ t)) = row s ++ row t :=
  Text.map_pieces_joint isLetters_and hJoint hFirst hSecond
    fun _ u hBlank _ =>
      ⟨Text.trim_append_left u hBlank,
        Text.trim_append_right u hBlank⟩

theorem layout_blank_append
    {b : Text}
    (hBlank : Text.IsBlank b)
    (hBalanced : Text.Balanced t) :
    layout (b ++ t) = layout t :=
  Text.map_pieces_blank_append isLetters_or hBlank hBalanced
    fun _ hU => row_blank_append hBlank hU

theorem layout_append_blank
    {b : Text}
    (hBlank : Text.IsBlank b)
    (hBalanced : Text.Balanced t) :
    layout (t ++ b) = layout t :=
  Text.map_pieces_append_blank isLetters_or hBlank hBalanced
    fun _ hU => row_append_blank hBlank hU

/- OR puts the rows of two texts one after the other. -/
theorem layout_or
    (hJoint : Text.IsJoint "OR".toList joint)
    (hFirst : Text.Balanced s)
    (hSecond : Text.Balanced t) :
    layout (s ++ (joint ++ t)) = layout s ++ layout t :=
  Text.map_pieces_joint isLetters_or hJoint hFirst hSecond
    fun _ _ hBlank hU =>
      ⟨row_blank_append hBlank hU, row_append_blank hBlank hU⟩

/- AND makes one of the last row and the first. -/
theorem layout_and
    (hJoint : Text.IsJoint "AND".toList joint)
    (hFirst : Text.Balanced s)
    (hSecond : Text.Balanced t) :
    layout (s ++ (joint ++ t)) =
      glue (fun r r' => r ++ r') (layout s) (layout t) :=
  Text.map_pieces_otherJoint isLetters_or isLetters_and
    (by decide) hJoint hFirst hSecond
    fun _ _ hU hV => row_and hJoint hU hV

/- There is neither OR nor AND in the text. -/
structure IsPart
    (t : Text) : Prop where
  balanced : Text.Balanced t
  free_or : Text.IsFree ["OR".toList] t
  free_and : Text.IsFree ["AND".toList] t

theorem layout_of_isPart
    (hPart : IsPart t) :
    layout t = [[Text.trim t]] := by
  rw [layout, hPart.free_or]
  change [row t] = _
  rw [row, hPart.free_and]
  rfl

/- A text that is laid out as a single part is one. -/
theorem isPart_of_layout
    {part : Text}
    (hBalanced : Text.Balanced t)
    (hLayout : layout t = [[part]]) :
    IsPart t ∧ part = Text.trim t := by
  have hTail : (Text.cutOf ["OR".toList] t).tail = [] := by
    have hLength := congrArg List.length hLayout
    simpa [layout, Cut.pieces] using hLength
  have hOr : Text.IsFree ["OR".toList] t :=
    Text.isFree_of_tail hBalanced hTail
  have hRow : row t = [part] := by
    rw [layout, hOr] at hLayout
    exact List.head_eq_of_cons_eq hLayout
  have hTail' : (Text.cutOf ["AND".toList] t).tail = [] := by
    have hLength := congrArg List.length hRow
    simpa [row, Cut.pieces] using hLength
  have hAnd : Text.IsFree ["AND".toList] t :=
    Text.isFree_of_tail hBalanced hTail'
  refine ⟨⟨hBalanced, hOr, hAnd⟩, ?_⟩
  rw [row, hAnd] at hRow
  exact (List.head_eq_of_cons_eq hRow).symm

/- Groups and quoted sections are parts. -/
theorem isPart_of_hidden
    (hBalanced : Text.Balanced t)
    (hHidden : Nesting.Hidden (Text.marking t)) :
    IsPart t :=
  ⟨hBalanced,
    Text.isFree_of_hidden (by simpa using isLetters_or)
      hBalanced hHidden,
    Text.isFree_of_hidden (by simpa using isLetters_and)
      hBalanced hHidden⟩

------------------------------------------------------------
-- Reading Part by Part
------------------------------------------------------------

/- What reads a text in parentheses that may be opened yet. -/
def within
    (env : Environment) :
    Nat → Option (Text → Except Error Condition)
  | 0 => none
  | allowance + 1 => some (readNested env allowance)

theorem readNested_eq
    (env : Environment)
    (allowance : Nat) :
    readNested env allowance =
      readAll env (within env allowance) := by
  cases allowance <;> rfl

/- A list is read when every element of it is. -/
theorem mapM_eq_ok_iff
    {α β ε : Type}
    {f : α → Except ε β}
    {as : List α}
    {bs : List β} :
    as.mapM f = .ok bs ↔
      List.Forall₂ (fun a b => f a = .ok b) as bs := by
  induction as generalizing bs with
  | nil =>
      rw [List.mapM_nil, List.forall₂_nil_left_iff]
      constructor
      · exact fun h => (Except.ok.inj h).symm
      · rintro rfl
        rfl
  | cons a as ih =>
      rw [List.mapM_cons, List.forall₂_cons_left_iff]
      cases hHead : f a with
      | error e => simp [bind, Except.bind]
      | ok b =>
          cases hRest : as.mapM f with
          | error e =>
              simp only [bind, Except.bind, reduceCtorEq,
                false_iff]
              rintro ⟨_, bs', -, hAll, -⟩
              rw [← ih, hRest] at hAll
              exact absurd hAll (by simp)
          | ok rest =>
              simp only [bind, Except.bind, pure, Except.pure,
                Except.ok.injEq]
              constructor
              · rintro rfl
                exact ⟨b, rest, rfl, ih.mp hRest, rfl⟩
              · rintro ⟨_, bs', rfl, hAll, rfl⟩
                rw [← ih, hRest, Except.ok.injEq] at hAll
                rw [hAll]

/- Blanks around a part make no difference. -/
theorem readPart_trim
    (env : Environment)
    (deeper? : Option (Text → Except Error Condition))
    (t : Text) :
    readPart env deeper? (Text.trim t) =
      readPart env deeper? t := by
  simp only [readPart, Text.trim_trim]

/- What the parts of a row are read as. -/
def RowReadsAs
    (env : Environment)
    (deeper? : Option (Text → Except Error Condition)) :
    List Text → List Condition → Prop :=
  List.Forall₂ fun part c => readPart env deeper? part = .ok c

/- What the parts in some rows are read as. -/
def ReadsAs
    (env : Environment)
    (deeper? : Option (Text → Except Error Condition)) :
    List (List Text) → List (List Condition) → Prop :=
  List.Forall₂ (RowReadsAs env deeper?)

variable {env : Environment}
variable {deeper? : Option (Text → Except Error Condition)}
variable {c : Condition}

theorem readAnd_eq_ok_iff
    (hBalanced : Text.Balanced t) :
    readAnd env deeper? t = .ok c ↔
      ∃ parts,
        RowReadsAs env deeper? (row t) parts ∧
          c = joinAll .and parts := by
  rw [readAnd, Text.splitAtKeyword_eq hBalanced, words_and]
  change (do
    let parts ← (Text.cutOf ["AND".toList] t).pieces.mapM
      (readPart env deeper?)
    return joinAll .and parts) = .ok c ↔ _
  have hRow (parts : List Condition) :
      RowReadsAs env deeper? (row t) parts ↔
        (Text.cutOf ["AND".toList] t).pieces.mapM
            (readPart env deeper?) =
          .ok parts := by
    rw [RowReadsAs, row, List.forall₂_map_left_iff,
      mapM_eq_ok_iff]
    simp only [readPart_trim]
  simp only [hRow]
  cases (Text.cutOf ["AND".toList] t).pieces.mapM
      (readPart env deeper?) with
  | error e => simp [bind, Except.bind]
  | ok parts =>
      simp [bind, Except.bind, pure, Except.pure, eq_comm]

/- Rows are read when the parts in all of them are. -/
theorem forall₂_readAnd_iff
    {pieces : List Text}
    {children : List Condition}
    (hBalanced : ∀ piece ∈ pieces, Text.Balanced piece) :
    List.Forall₂
        (fun piece c => readAnd env deeper? piece = .ok c)
        pieces children ↔
      ∃ rows,
        ReadsAs env deeper? (pieces.map row) rows ∧
          children = rows.map (joinAll .and) := by
  induction pieces generalizing children with
  | nil =>
      rw [List.forall₂_nil_left_iff]
      constructor
      · rintro rfl
        exact ⟨[], List.Forall₂.nil, rfl⟩
      · rintro ⟨rows, hRows, rfl⟩
        rw [ReadsAs, List.map_nil,
          List.forall₂_nil_left_iff] at hRows
        rw [hRows, List.map_nil]
  | cons piece pieces ih =>
      have hHead := hBalanced piece List.mem_cons_self
      have hRest (cs : List Condition) :
          List.Forall₂
              (fun piece c => readAnd env deeper? piece = .ok c)
              pieces cs ↔
            ∃ rows,
              ReadsAs env deeper? (pieces.map row) rows ∧
                cs = rows.map (joinAll .and) :=
        ih fun p h => hBalanced p (List.mem_cons_of_mem piece h)
      rw [List.forall₂_cons_left_iff]
      constructor
      · rintro ⟨c, cs, hFirst, hAll, rfl⟩
        rcases (readAnd_eq_ok_iff hHead).mp hFirst
          with ⟨parts, hParts, rfl⟩
        rcases (hRest cs).mp hAll with ⟨rows, hRows, rfl⟩
        exact
          ⟨parts :: rows, List.Forall₂.cons hParts hRows, rfl⟩
      · rintro ⟨rows, hRows, rfl⟩
        rw [ReadsAs, List.map_cons,
          List.forall₂_cons_left_iff] at hRows
        rcases hRows with ⟨parts, rest, hParts, hAll, rfl⟩
        exact
          ⟨joinAll .and parts, rest.map (joinAll .and),
            (readAnd_eq_ok_iff hHead).mpr ⟨parts, hParts, rfl⟩,
            (hRest _).mpr ⟨rest, hAll, rfl⟩, rfl⟩

/- The balance of a text is checked before it is split. -/
theorem readNested_of_not_balanced
    (allowance : Nat)
    (hNot : ¬ Text.Balanced t) :
    readNested env allowance t = .error (.unbalanced t) := by
  have hSplit :
      Text.splitAtKeyword "OR".toList t =
        .error (.unbalanced t) := by
    rw [Text.splitAtKeyword, Text.cutAtKeyword, Text.marked_eq,
      if_neg hNot]
    rfl
  rw [readNested_eq, readAll, hSplit]
  rfl

theorem balanced_of_readNested
    {allowance : Nat}
    (hRead : readNested env allowance t = .ok c) :
    Text.Balanced t := by
  by_contra hNot
  rw [readNested_of_not_balanced allowance hNot] at hRead
  exact absurd hRead (by simp)

/- A balanced text is read by its layout. -/
theorem readAll_eq_ok_iff
    (hBalanced : Text.Balanced t) :
    readAll env deeper? t = .ok c ↔
      ∃ rows,
        ReadsAs env deeper? (layout t) rows ∧
          c = joinAll .or (rows.map (joinAll .and)) := by
  have hPieces :
      ∀ piece ∈ (Text.cutOf ["OR".toList] t).pieces,
        Text.Balanced piece :=
    fun _ hMem =>
      Text.balanced_of_mem_pieces (by simpa using isLetters_or)
        hBalanced hMem
  rw [readAll, Text.splitAtKeyword_eq hBalanced, words_or]
  change (do
    let children ← (Text.cutOf ["OR".toList] t).pieces.mapM
      (readAnd env deeper?)
    return joinAll .or children) = .ok c ↔ _
  have hRows (children : List Condition) :
      (Text.cutOf ["OR".toList] t).pieces.mapM
            (readAnd env deeper?) =
          .ok children ↔
        ∃ rows,
          ReadsAs env deeper? (layout t) rows ∧
            children = rows.map (joinAll .and) := by
    rw [mapM_eq_ok_iff, forall₂_readAnd_iff hPieces]
    rfl
  constructor
  · intro hRead
    cases hAll : (Text.cutOf ["OR".toList] t).pieces.mapM
        (readAnd env deeper?) with
    | error e =>
        rw [hAll] at hRead
        exact absurd hRead (by simp [bind, Except.bind])
    | ok children =>
        rw [hAll] at hRead
        rcases (hRows children).mp hAll with ⟨rows, hReads, rfl⟩
        exact ⟨rows, hReads, (Except.ok.inj hRead).symm⟩
  · rintro ⟨rows, hReads, rfl⟩
    rw [(hRows _).mpr ⟨rows, hReads, rfl⟩]
    rfl

end Condition

end SqlSelect
