/-
  EnumExtract.Proofs.CommentsAsBlanks
  ────────────────────────────────
  A comment between two tokens says what a blank says.

  With a blank in the place of a comment the same declarations are found and
  the same is read of each of them.  Names, visibility and brackets go by what
  is read in lockstep.  Types are taken as text, where a comment turns into a
  blank anyway; and labels are, where it does not, so that the blank must not
  complete one.

  Main results:
    • `Spacer.bothWays`            the two sources are read in lockstep both ways,
    • `Spacer.keepsFields`         fields are kept,
    • `Text.items_asBlank`         the same declarations are found and read.
-/
import EnumExtract.Proofs.LockstepBodies
import EnumExtract.Proofs.Spacing

namespace EnumExtract

open Cursor

/-! ## §1. Labels. -/

namespace Field

/-- The colon of a label is a single one. -/
theorem label?_single {t name : Text} {n : Nat} (label : label? t = some (name, n)) : t[n]? ≠ some ':' := by
  obtain ⟨b, rest, rfl, rfl, isIdentifier, blank⟩ := label?_some label
  intro colon
  rw [label?_append (identifier?_gap isIdentifier blank (.inr rfl)) blank (by rintro _ ⟨⟩; rfl)] at label
  rw [← List.length_append, List.getElem?_append_right (by omega), Nat.add_sub_cancel_left] at colon
  cases rest with
  | nil => cases colon
  | cons ch rest =>
      cases colon
      cases label

/-- A label goes by its own text and by the character behind it. -/
theorem label?_of_take {t t' name : Text} {k n : Nat} (same : t'.take k = t.take k) (within : n ≤ k)
    (stop : t'[k]? ≠ some ':') (label : label? t = some (name, n)) : label? t' = some (name, n) := by
  have single : t'[n]? ≠ some ':' := by
    rcases Nat.lt_or_eq_of_le within with inside | rfl
    · have cut := congrArg (·[n]?) same
      simp only [List.getElem?_take, if_pos inside] at cut
      rw [cut]
      exact label?_single label
    · exact stop
  have cut := congrArg (List.take n) same
  rw [List.take_take, List.take_take, Nat.min_eq_left within] at cut
  obtain ⟨b, rest, rfl, rfl, isIdentifier, blank⟩ := label?_some label
  have whole : t' = name ++ b ++ ':' :: t'.drop (name.length + b.length + 1) := by
    conv_lhs => rw [← List.take_append_drop (name.length + b.length + 1) t', cut]
    rw [show name ++ b ++ ':' :: rest = (name ++ b ++ [':']) ++ rest by simp,
      List.take_left' (by simp [Nat.add_assoc])]
    simp
  rw [whole]
  refine label?_of_colon isIdentifier blank ?_
  rwa [List.head?_drop]

/-- A label in a piece that does not end at a colon stands in the whole text. -/
theorem label?_of_upTo {t name : Text} {ch : Char} {i j n : Nat} (le : j ≤ i)
    (bound : (t.cursor i).ahead.head? = some ch) (other : ch ≠ ':')
    (label : label? ((t.cursor j).upTo i) = some (name, n)) : label? (t.cursor j).ahead = some (name, n) := by
  have stop := Border.getElem?_of_first le bound
  have cut : (t.cursor j).upTo i = (t.cursor j).ahead.take (i - j) := rfl
  rw [cut] at label
  refine label?_of_take (by rw [List.take_take, Nat.min_self]) ?_ ?_ label
  · have fits := label_fits label
    rw [List.length_take] at fits
    omega
  · rw [stop]
    exact fun same => other (Option.some.inj same)

/-- A label starts as a name does. -/
theorem label?_of_first {t : Text} {ch : Char} (first : t.head? = some ch) (plain : isNameStart ch = false) :
    label? t = none := by
  have noWord : Text.identifier? t = none :=
    Option.map_eq_none_iff.mp (identifier?_of_head? (c := ⟨none, 0, t⟩) first plain)
  rw [label?, noWord]
  rfl

/-- No slash is part of a label. -/
theorem label?_le_of_slash {t name : Text} {k n : Nat} (slash : t[k]? = some '/')
    (label : label? t = some (name, n)) : n ≤ k := by
  obtain ⟨b, rest, rfl, rfl, isIdentifier, blank⟩ := label?_some label
  rcases Nat.lt_or_ge k (name.length + b.length + 1) with inside | ok
  · exfalso
    rw [show name ++ b ++ ':' :: rest = (name ++ b ++ [':']) ++ rest by simp,
      List.getElem?_append_left (by simp only [List.length_append, List.length_singleton]; omega)] at slash
    rcases List.mem_append.mp (List.mem_of_getElem? slash) with mem | mem
    · rcases List.mem_append.mp mem with word | gap
      · rcases isIdentifier.isWord '/' word with word | same
        · cases word
        · cases same
      · cases blank '/' gap
    · cases List.mem_singleton.mp mem
  · exact ok

end Field

/-! ## §2. Types. -/

section Types

variable {p : Piece} {c : Cursor} {texts : List Text} {n : Nat}

theorem Cursor.upTo_next {i : Nat} (lt : c.offset < i) :
    c.upTo (min (c.offset + 1) i) = c.ahead.head?.toList := by
  rw [upTo, show min (c.offset + 1) i - c.offset = 1 by omega, List.take_one]

theorem Piece.withoutComments_step_comment (before : c.offset < p.stop) (comment : c.comment? = .ok (some n)) :
    withoutComments.step p texts c = .ok (.move ([' '] :: texts) n) := by
  rw [withoutComments.step, if_neg (Nat.not_le_of_lt before), comment]
  rfl

theorem Piece.withoutComments_step_other {length? : Option Nat} (before : c.offset < p.stop)
    (noComment : c.comment? = .ok none) (lexeme : c.lexeme? = .ok length?) :
    withoutComments.step p texts c
      = .ok (.move (c.upTo (min (c.offset + length?.getD 1) p.stop) :: texts) (length?.getD 1)) := by
  have literal : c.literal? = .ok length? := by
    rwa [lexeme?, noComment] at lexeme
  rw [withoutComments.step, if_neg (Nat.not_le_of_lt before), noComment]
  show (c.literal? >>= _) = _
  rw [literal]
  rfl

theorem Piece.withoutComments_step_error {fault : Fault} (before : c.offset < p.stop)
    (lexeme : c.lexeme? = .error fault) : withoutComments.step p texts c = .error fault := by
  rw [withoutComments.step, if_neg (Nat.not_le_of_lt before)]
  unfold lexeme? at lexeme
  cases comment : c.comment? with
  | error fault' =>
      rw [comment] at lexeme
      obtain rfl : fault' = fault := Except.error.inj lexeme
      rfl
  | ok comment? =>
      rw [comment] at lexeme
      cases comment? with
      | some n => cases lexeme
      | none =>
          have literal : c.literal? = .error fault := lexeme
          show (c.literal? >>= _) = _
          rw [literal]
          rfl

end Types

/-- At places in step the same text is taken over, if literals are the same as far as the pieces go. -/
theorem BothWays.withoutComments_step {t t' : Text} {R : Cursor → Cursor → Prop} {c c' start start' : Cursor}
    {i i' : Nat} (B : BothWays t t' R) (h : R c c') (both : c.InStep R c') (bounds : Bounds R i i')
    (before : c.offset < i) (more : c.ahead ≠ []) (texts : List Text)
    (literal : ∀ n n', c.comment? = .ok none → c.lexeme? = .ok (some n) → c'.lexeme? = .ok (some n') →
      c'.upTo (min (c'.offset + n') i') = c.upTo (min (c.offset + n) i)) :
    Alike (Step.Alike R Eq Eq c c') (Piece.withoutComments.step ⟨start, i⟩ texts c)
      (Piece.withoutComments.step ⟨start', i'⟩ texts c') := by
  have before' : c'.offset < i' := by
    have := B.le_iff_of_bounds h bounds
    omega
  cases hl : c.lexeme? with
  | error fault =>
      obtain ⟨fault', hl', code⟩ := B.lexeme?_error h hl
      rw [Piece.withoutComments_step_error before hl, Piece.withoutComments_step_error before' hl']
      exact .error code
  | ok length? =>
      obtain ⟨comment, hc, _⟩ := bind_ok_iff.mp hl
      cases comment with
      | some n =>
          obtain ⟨n', hc'⟩ := both.comment n hc
          obtain ⟨m, hl', there⟩ := both.lexeme n (lexeme?_some_iff.mpr (.inl hc))
          rw [lexeme?_some_iff.mpr (.inl hc')] at hl'
          cases hl'
          rw [Piece.withoutComments_step_comment before hc, Piece.withoutComments_step_comment before' hc']
          exact .ok (.move rfl there)
      | none =>
          have hc' := both.noComment hc
          cases length? with
          | some n =>
              obtain ⟨n', hl', there⟩ := both.lexeme n hl
              rw [Piece.withoutComments_step_other before hc hl,
                Piece.withoutComments_step_other before' hc' hl']
              refine .ok (.move ?_ there)
              exact congrArg (· :: texts) (literal n n' hc hl hl').symm
          | none =>
              rw [Piece.withoutComments_step_other before hc hl,
                Piece.withoutComments_step_other before' hc' (both.noLexeme hl)]
              refine .ok (.move ?_ (B.next h both hl more))
              rw [Option.getD_none, upTo_next before, upTo_next before', both.head]

/-! ## §3. Comments and blanks. -/

namespace Spacer

variable {front com back : Text} {c c' : Cursor} {i i' j : Nat}

/-- **The two sources are read in lockstep both ways.** -/
theorem bothWays (S : Spacer front com back) :
    BothWays (front ++ (com ++ back)) (front ++ ([' '] ++ back)) (Blanked front com back) :=
  ⟨S.lockstep, S.lockstep_flip, S.keepsAttributes, fun _ _ h _ hl more => S.next h hl more,
    fun _ _ h stuck hl more => S.next_flip h stuck hl more⟩

theorem blank_here (front back : Text) :
    ((front ++ ([' '] ++ back)).cursor front.length).ahead.head? = some ' ' := by
  rw [ahead_here]
  rfl

theorem keepsArrows (S : Spacer front com back) : KeepsArrows (Blanked front com back) := by
  intro c c' h more
  cases h with
  | before h =>
      obtain ⟨j, lt, rfl, rfl, _⟩ := h
      rw [(S.agree (Nat.le_of_lt lt)).before]
  | here => rw [(S.agree (Nat.le_refl _)).before]
  | behind k =>
      -- at once behind it stands the end of the comment in front, or the blank
      obtain ⟨x, kind, before, before'⟩ := S.before_behind k more
      show Option.any _ ((front ++ ([' '] ++ back)).cursor (front.length + 1 + k)).before = _
      rw [before, before']
      split
      · rcases kind with rfl | rfl <;> rfl
      · rfl

/-- Bounds are at the same offset in front of the comment, or equally far behind it. -/
theorem bounds_offsets (bounds : Bounds (Blanked front com back) i i') :
    (i ≤ front.length ∧ i' = i)
      ∨ ∃ k, i = front.length + com.length + k ∧ i' = front.length + 1 + k := by
  obtain ⟨x, x', _, related, rfl, rfl, _⟩ := bounds
  exact offsets related

/-- Behind the comment the same text is ahead. -/
theorem upTo_behind {k : Nat} (same : i' - (front.length + 1 + k) = i - (front.length + com.length + k)) :
    ((front ++ ([' '] ++ back)).cursor (front.length + 1 + k)).upTo i'
      = ((front ++ (com ++ back)).cursor (front.length + com.length + k)).upTo i := by
  show (Text.cursor _ _).ahead.take _ = (Text.cursor _ _).ahead.take _
  rw [show ((front ++ ([' '] ++ back)).cursor (front.length + 1 + k)).ahead
    = ((front ++ (com ++ back)).cursor (front.length + com.length + k)).ahead from
      Replaced.ahead_behind front com [' '] back k]
  exact congrArg (List.take · _) same

/-- A label in front of the comment stands in both sources, in pieces that reach behind it. -/
theorem label_eq_before (S : Spacer front com back) (lt : j < front.length)
    (bounds : Bounds (Blanked front com back) i i') (long : front.length < i) (long' : front.length < i') :
    Field.label? (((front ++ ([' '] ++ back)).cursor j).upTo i')
      = Field.label? (((front ++ (com ++ back)).cursor j).upTo i) := by
  have same := (S.agree (Nat.le_of_lt lt)).take (k := front.length - j) (by rw [offset_cursor]; omega)
  have slash := Border.getElem?_of_first (Nat.le_of_lt lt) S.slash
  have blank : ((front ++ ([' '] ++ back)).cursor j).ahead[front.length - j]? = some ' ' :=
    Border.getElem?_of_first (Nat.le_of_lt lt) (blank_here front back)
  -- both pieces are cut off behind the comment
  have inside (t : Text) {i : Nat} (long : front.length < i) :
      ((t.cursor j).upTo i).take (front.length - j) = (t.cursor j).ahead.take (front.length - j)
        ∧ ((t.cursor j).upTo i)[front.length - j]? = (t.cursor j).ahead[front.length - j]? := by
    rw [upTo, offset_cursor]
    exact ⟨by rw [List.take_take, Nat.min_eq_left (by omega)], List.getElem?_take_of_lt (by omega)⟩
  obtain ⟨cut, at'⟩ := inside (front ++ (com ++ back)) long
  obtain ⟨cut', at''⟩ := inside (front ++ ([' '] ++ back)) long'
  refine Option.ext fun l => ⟨fun label' => ?_, fun label => ?_⟩
  · obtain ⟨name, n⟩ := l
    -- the blank completes no label, so that this one ends in front of it
    obtain ⟨x, x', ch, related, _, rfl, _, bound, ends⟩ := bounds
    rw [(S.lockstep.place related).2] at bound
    have whole := Field.label?_of_upTo (by omega) bound (by
      rintro rfl
      rcases ends with same | closes
      · cases same
      · cases closes) label'
    have within : j + n ≤ front.length := S.label j lt (name, n) whole
    refine Field.label?_of_take (k := front.length - j) (by rw [cut, cut', same]) (by omega) ?_ label'
    rw [at', slash]
    decide
  · obtain ⟨name, n⟩ := l
    refine Field.label?_of_take (k := front.length - j) (by rw [cut, cut', same])
      (Field.label?_le_of_slash (at'.trans slash) label) ?_ label
    rw [at'', blank]
    decide

/-- **The same label** stands at corresponding places. -/
theorem label_eq (S : Spacer front com back) (h : Blanked front com back c c')
    (bounds : Bounds (Blanked front com back) i i') (before : c.offset < i) :
    Field.label? (c'.upTo i') = Field.label? (c.upTo i) := by
  have pos := S.length_pos
  cases h with
  | here =>
      -- neither a slash nor a blank starts a name
      have before' : front.length < i' := by
        rw [offset_cursor] at before
        rcases bounds_offsets bounds with ⟨le, _⟩ | ⟨m, _, eq'⟩ <;> omega
      have unlabelled {t : Text} {i : Nat} {ch : Char} (lt : front.length < i)
          (first : (t.cursor front.length).ahead.head? = some ch) (plain : isNameStart ch = false) :
          Field.label? ((t.cursor front.length).upTo i) = none := by
        have start : ((t.cursor front.length).upTo i).head? = some ch := by
          rw [upTo, List.head?_take, if_neg (by rw [offset_cursor]; omega), first]
        exact Field.label?_of_first start plain
      rw [unlabelled before S.slash rfl, unlabelled before' (blank_here front back) rfl]
  | behind k =>
      refine congrArg _ (upTo_behind ?_)
      rcases bounds_offsets bounds with ⟨_, same⟩ | ⟨m, eq, eq'⟩ <;> omega
  | before h =>
      obtain ⟨j, lt, rfl, rfl, _⟩ := h
      have agree := S.agree (Nat.le_of_lt lt)
      rcases bounds_offsets bounds with ⟨le, rfl⟩ | ⟨m, eq, eq'⟩
      · rw [agree.upTo le rfl]
      · exact S.label_eq_before lt bounds (by omega) (by omega)

/-- What is taken over into a type is the same at corresponding places. -/
theorem strip_eq (S : Spacer front com back) {start start' : Cursor} (texts : List Text)
    (h : Blanked front com back c c') (bounds : Bounds (Blanked front com back) i i') (before : c.offset < i)
    (more : c.ahead ≠ []) :
    Alike (Step.Alike (Blanked front com back) Eq Eq c c') (Piece.withoutComments.step ⟨start, i⟩ texts c)
      (Piece.withoutComments.step ⟨start', i'⟩ texts c') := by
  have related := h
  cases h with
  | before h =>
      have both := S.inStep h
      obtain ⟨j, lt, rfl, rfl, m, near⟩ := h
      refine S.bothWays.withoutComments_step related both bounds before more texts fun n n' _ hl hl' => ?_
      -- a literal ends in front of the comment
      have le := S.lexeme_le lt near hl
      have agree := S.agree (Nat.le_of_lt lt)
      rw [agree.lexeme?_some hl le] at hl'
      cases hl'
      have pos := S.length_pos
      refine agree.upTo (by rw [offset_cursor]; omega) ?_
      rw [offset_cursor, offset_cursor]
      rcases bounds_offsets bounds with ⟨_, same⟩ | ⟨k, eq, eq'⟩ <;> omega
  | here =>
      -- a comment is taken over as the blank that stands for it
      have before' : front.length < i' := by
        have := S.bothWays.le_iff_of_bounds related bounds
        rw [offset_cursor, offset_cursor] at this
        rw [offset_cursor] at before
        omega
      have blank := blank_here front back
      have noLexeme := lexeme?_of_blank blank rfl
      rw [Piece.withoutComments_step_comment before S.comment,
        Piece.withoutComments_step_other before' (lexeme?_none_iff.mp noLexeme).1 noLexeme]
      have next := upTo_next (c := (front ++ ([' '] ++ back)).cursor front.length) before'
      rw [blank] at next
      refine .ok (.move (congrArg (· :: texts) next.symm) ?_)
      rw [advance_cursor, advance_cursor]
      exact .behind 0
  | behind k =>
      refine S.bothWays.withoutComments_step related (S.inStep_behind k) bounds before more texts
        fun n n' _ hl hl' => ?_
      have same := Replaced.ahead_behind front com [' '] back k
      have there : ((front ++ ([' '] ++ back)).cursor (front.length + [' '].length + k)).lexeme? = .ok (some n) :=
        lexeme?_of_same same (S.atWordStart_behind k more) hl
      rw [there] at hl'
      cases hl'
      refine upTo_behind ?_
      have one : ([' '] : Text).length = 1 := rfl
      simp only [offset_cursor, one] at before ⊢
      rcases bounds_offsets bounds with ⟨_, same⟩ | ⟨m, eq, eq'⟩ <;> omega

/-- **Fields are kept** where a blank stands for a comment. -/
theorem keepsFields (S : Spacer front com back) : KeepsFields (Blanked front com back) :=
  ⟨S.keepsArrows, fun _ _ _ _ h bounds before => S.label_eq h bounds before,
    fun _ _ _ _ _ _ texts h bounds before more => S.strip_eq texts h bounds before more⟩

end Spacer

/-! ## §4. Declarations. -/

/-- The same is read of two declarations, the one of the text `t` and the other of `t'`: the enum, if
it is one, with its mark, or the struct; or a fault of the same class is found. -/
structure Item.SameReading (t t' : Text) (item item' : Item) : Prop where
  marked : Alike Eq (EnumDecl.isMarked t item) (EnumDecl.isMarked t' item')
  enum : Alike EnumDecl.Like (EnumDecl.read t item) (EnumDecl.read t' item')
  struct : Alike StructDecl.Like (StructDecl.read t item) (StructDecl.read t' item')

/-- **A comment between two tokens counts as a blank.**  With a blank in its place the same
declarations are found, those behind it at other offsets, or a fault of the same class; and the same
is read of each of them.  Only where the name of a declaration runs into a raw string does the scan
lose track of what is a comment. -/
theorem Text.items_asBlank {front com back : Text} (S : Spacer front com back)
    (names : ((front ++ (com ++ back)).cursor 0).NamesPlain) :
    Alike
      (fun items items' =>
        items' = items.map (·.relocated (offsetBehind front.length com.length 1))
          ∧ ∀ item ∈ items, Item.SameReading (front ++ (com ++ back)) (front ++ ([' '] ++ back)) item
              (item.relocated (offsetBehind front.length com.length 1)))
      (Text.items (front ++ (com ++ back))) (Text.items (front ++ ([' '] ++ back))) := by
  have B := S.bothWays
  have moved (i i' : Nat) (h : Marks (Blanked front com back) i i') := h.eq_offsetBehind S.length_pos
  rcases B.forth.items_outcome B.back B.attributes (Replaced.start front com [' '] back) B.onward
      B.onward_flip names with
    ⟨items, items', h, h', all⟩ | ⟨fault, fault', h, h', same⟩
  · rw [h, h']
    have same := eq_relocated_of_tracked moved all
    refine .ok ⟨same, fun item mem => ?_⟩
    rw [same] at all
    have tracked := List.forall₂_same.mp (List.forall₂_map_right_iff.mp all) item mem
    exact ⟨tracked.isMarked, B.enumDecl S.keepsFields tracked, B.structDecl S.keepsFields tracked⟩
  · rw [h, h']
    exact .error same

/-- An enum, up to a comment behind the name of a variant. -/
def commentedFront : Text := "enum E \x7b A "

/-- The fields of the variant, and another variant. -/
def commentedBack : Text := " (u8), B \x7b x: Vec<u8> \x7d \x7d"

/-- A comment that looks like a list of fields stands between a variant and its fields. -/
theorem commentedEnum_read :
    ∃ items, Text.items (commentedFront ++ ("/* (i32) */" ++ commentedBack)) = .ok items
      ∧ items.map (·.path) = ([["E"]] : List (List Text))
      ∧ Text.items (commentedFront ++ ([' '] ++ commentedBack))
        = .ok (items.map (·.relocated (offsetBehind 11 11 1)))
      ∧ ∀ item ∈ items, ∃ enum enum',
          EnumDecl.read (commentedFront ++ ("/* (i32) */" ++ commentedBack)) item = .ok enum
            ∧ enum.variants.map (·.name) = (["A", "B"] : List Text)
            ∧ EnumDecl.read (commentedFront ++ ([' '] ++ commentedBack))
                (item.relocated (offsetBehind 11 11 1)) = .ok enum'
            ∧ enum.Like enum' := by
  have spacer : Spacer commentedFront "/* (i32) */" commentedBack := by
    refine ⟨by decide +kernel, by decide +kernel, ?_, .of_unseen (by decide +kernel), fun tick => ?_,
      by decide +kernel, by decide +kernel⟩
    · have ahead : (Text.cursor (commentedFront ++ ("/* (i32) */" ++ commentedBack)) 0).ahead
          = commentedFront ++ ("/* (i32) */" ++ commentedBack) := rfl
      obtain ⟨code, reads, _⟩ := reads_plain ahead (by decide +kernel)
      exact ⟨_, code, reads, rfl⟩
    · exact absurd tick (by decide)
  obtain ⟨items, scan, paths, reads⟩ : ∃ items,
      Text.items (commentedFront ++ ("/* (i32) */" ++ commentedBack)) = .ok items
        ∧ items.map (·.path) = ([["E"]] : List (List Text))
        ∧ ∀ item ∈ items, (EnumDecl.read (commentedFront ++ ("/* (i32) */" ++ commentedBack)) item).map
            (·.variants.map (·.name)) = .ok (["A", "B"] : List Text) :=
    exists_ok_of_decide (by decide +kernel)
  have both := Text.items_asBlank spacer (Cursor.namesPlain_of_noQuote (by decide +kernel))
  rw [scan] at both
  obtain ⟨items', scan', rfl, all⟩ := both.exists_of_ok
  refine ⟨items, scan, paths, scan', fun item mem => ?_⟩
  have names := reads item mem
  have enums := (all item mem).enum
  cases read : EnumDecl.read (commentedFront ++ ("/* (i32) */" ++ commentedBack)) item with
  | error fault =>
      rw [read] at names
      cases names
  | ok enum =>
      rw [read] at names enums
      obtain ⟨enum', read', like⟩ := enums.exists_of_ok
      exact ⟨enum, enum', rfl, Except.ok.inj names, read', like⟩

end EnumExtract
