/-
  EnumExtract.Proofs.Fields
  ────────────────────────────────
  Lists in brackets and the fields they hold, read in two texts that agree.

  Main results:
    • `Field.read_ok_iff`     the parts of a field,
    • `Agree.pieces`          a list is cut into corresponding pieces,
    • `Agree.fields`          and its fields are the same.
-/
import EnumExtract.Proofs.Transfer

namespace EnumExtract

open Cursor

/-! ## §1. Pieces. -/

/-- The pieces are the same stretch of two texts that agree. -/
structure Piece.Twin (e e' : Nat) (p p' : Piece) : Prop where
  start : Agree e e' p.start p'.start
  stop : p'.stop + e = p.stop + e'

/-- The two cuttings have come equally far. -/
structure Cutting.Twin (e e' : Nat) (s s' : Cutting) : Prop where
  found : List.Forall₂ (Piece.Twin e e') s.found s'.found
  start : Agree e e' s.start s'.start
  depth : s'.depth = s.depth
  angle : s'.angle = s.angle

variable {e e' : Nat} {o c c' d x x' : Cursor} {m : Int} {i j : Nat} {p p' : Piece}
  {code code' : List (Cursor × Char)}

theorem Cutting.Twin.read {s s' : Cutting} {ch : Char} (h : s.Twin e e' s')
    (agree : Agree e e' x x') (lt : x.offset < e) : (s.read x ch).Twin e e' (s'.read x' ch) := by
  have place := agree.place
  unfold Cutting.read
  rw [h.depth, h.angle, agree.before]
  by_cases opens : (closer? ch).isSome = true
  · rw [if_pos opens, if_pos opens]
    exact ⟨h.found, h.start, rfl, rfl⟩
  rw [if_neg opens, if_neg opens]
  by_cases closes : isCloser ch = true
  · rw [if_pos closes, if_pos closes]
    exact ⟨h.found, h.start, rfl, rfl⟩
  rw [if_neg closes, if_neg closes]
  by_cases deep : s.depth ≠ 0
  · rw [if_pos deep, if_pos deep]
    exact h
  rw [if_neg deep, if_neg deep]
  by_cases less : ch = '<'
  · rw [if_pos less, if_pos less]
    exact ⟨h.found, h.start, rfl, rfl⟩
  rw [if_neg less, if_neg less]
  by_cases greater : (ch = '>' && !x.before.any fun b => b == '-' || b == '=') = true
  · rw [if_pos greater, if_pos greater]
    exact ⟨h.found, h.start, rfl, rfl⟩
  rw [if_neg greater, if_neg greater]
  by_cases comma : (ch = ',' && s.angle = 0) = true
  · rw [if_pos comma, if_pos comma]
    exact ⟨.cons ⟨h.start, by show x'.offset + e = x.offset + e'; omega⟩ h.found,
      agree.advance (by omega), rfl, rfl⟩
  · rw [if_neg comma, if_neg comma]
    exact h

theorem Cutting.Twin.over {s s' : Cutting} (h : s.Twin e e' s') (same : SameCode e e' code code')
    (within : ∀ y ∈ code, y.1.offset < e) : (s.over code).Twin e e' (s'.over code') := by
  induction same generalizing s s' with
  | nil => exact h
  | @cons y y' code code' here _ ih =>
      rw [Cutting.over_cons, Cutting.over_cons, here.1]
      exact ih (h.read here.2 (within y List.mem_cons_self))
        fun z mem => within z (List.mem_cons_of_mem y mem)

namespace Cursor

/-- All pieces of two stretches that agree correspond. -/
theorem Agree.allPieces {ps : List Piece} {stop' : Nat} (h : Agree e e' c c')
    (r : Reads c code d) (le : d.offset ≤ e) (same : stop' + e = d.offset + e')
    (hp : c.allPieces d.offset = .ok ps) :
    ∃ ps', c'.allPieces stop' = .ok ps' ∧ List.Forall₂ (Piece.Twin e e') ps ps' := by
  obtain ⟨code', d', r', agree, sameCode⟩ := h.reads r le
  have place := agree.place
  obtain rfl : stop' = d'.offset := by omega
  rw [allPieces_of_reads r] at hp
  cases hp
  refine ⟨_, allPieces_of_reads r', ?_⟩
  have twin : Cutting.Twin e e' ⟨[], c, 0, 0⟩ ⟨[], c', 0, 0⟩ := ⟨.nil, h, rfl, rfl⟩
  have end' := twin.over sameCode fun y mem => Nat.lt_of_lt_of_le (r.offset_lt_of_mem mem).2 le
  unfold Cutting.pieces
  rw [List.forall₂_reverse_iff]
  exact .cons ⟨end'.start, agree.place⟩ end'.found

end Cursor

theorem Piece.Twin.isFilled {b : Bool} (h : p.Twin e e' p') (sound : p.Sound o m i j)
    (lt : p.stop < e) (hb : p.isFilled = .ok b) : p'.isFilled = .ok b := by
  obtain ⟨first, hfirst, rfl⟩ := Piece.isFilled_ok_iff.mp hb
  have bound := sound.trivia_le sound.level hfirst sound.forward
  obtain ⟨first', agree, hfirst'⟩ := h.start.trivia hfirst (by omega)
  have place := agree.place
  have stop := h.stop
  refine Piece.isFilled_ok_iff.mpr ⟨first', hfirst', ?_⟩
  rw [decide_eq_decide]
  omega

theorem forall₂_filter {α β : Type} {R : α → β → Prop} {f : α → Bool} {g : β → Bool} {xs : List α}
    {ys : List β} (h : List.Forall₂ (fun x y => R x y ∧ g y = f x) xs ys) :
    List.Forall₂ R (xs.filter f) (ys.filter g) := by
  induction h with
  | nil => exact .nil
  | @cons x y xs ys here _ ih =>
      rw [List.filter_cons, List.filter_cons, here.2]
      split
      · exact .cons here.1 ih
      · exact ih

namespace Cursor

/-- **A list is cut into corresponding pieces.** -/
theorem Agree.pieces {ps : List Piece} {stop' : Nat} {ch : Char} (h : Agree e e' c c')
    (r : Reads c code d) (lt : d.offset < e) (same : stop' + e = d.offset + e')
    (level : Level o c m) (ends : CodeAt o d ch m) (closes : isCloser ch = true)
    (hp : c.pieces d.offset = .ok ps) :
    ∃ ps', c'.pieces stop' = .ok ps' ∧ List.Forall₂ (Piece.Twin e e') ps ps' := by
  obtain ⟨all, hall, hp⟩ := bind_ok_iff.mp hp
  obtain ⟨decided, rfl⟩ := filterM_ok_iff.mp hp
  obtain ⟨_, sound⟩ := allPieces_sound level r ends closes hall
  obtain ⟨all', hall', twins⟩ := h.allPieces r (by omega) same hall
  have filled : List.Forall₂ (fun p p' => p.Twin e e' p' ∧ p'.isFilled = .ok (holds Piece.isFilled p))
      all all' := by
    have known : ∀ p ∈ all, p.Sound o m c.offset d.offset ∧ p.isFilled = .ok (holds Piece.isFilled p) :=
      fun p mem => ⟨sound p mem, decided p mem⟩
    refine ((List.forall₂_and_left all all').mpr ⟨known, twins⟩).imp fun p p' here => ?_
    obtain ⟨⟨sound, decided⟩, twin⟩ := here
    have bound := sound.before
    exact ⟨twin, twin.isFilled sound (by omega) decided⟩
  refine ⟨all'.filter (holds Piece.isFilled), ?_, ?_⟩
  · refine bind_ok_iff.mpr ⟨all', hall', filterM_ok_iff.mpr ⟨fun p' mem => ?_, rfl⟩⟩
    obtain ⟨p, _, _, hp'⟩ := exists_of_forall₂_right filled mem
    rw [holds_of_ok hp', hp']
  · exact forall₂_filter (filled.imp fun p p' here => ⟨here.1, holds_of_ok here.2⟩)

/-! ## §2. Text without comments. -/

/-- The text from `c` up to `d`, both of them places of one reading, with one space for every
comment. -/
inductive Stripped : Cursor → Text → Cursor → Prop where
  | here (c : Cursor) : Stripped c [] c
  | comment {c d : Cursor} {w : Text} {n : Nat} (h : c.comment? = .ok (some n))
      (rest : Stripped (c.advance n) w d) : Stripped c (' ' :: w) d
  | literal {c d : Cursor} {w : Text} {n : Nat} (h : c.comment? = .ok none)
      (hl : c.literal? = .ok (some n)) (rest : Stripped (c.advance n) w d) :
      Stripped c (c.ahead.take n ++ w) d
  | char {c d : Cursor} {w : Text} {ch : Char} (h : c.lexeme? = .ok none)
      (first : c.ahead.head? = some ch) (rest : Stripped (c.advance 1) w d) : Stripped c (ch :: w) d

theorem Reads.stripped (h : Reads c code d) : ∃ w, Stripped c w d := by
  induction h with
  | here c => exact ⟨[], .here c⟩
  | @lexeme c d code n hl _ ih =>
      obtain ⟨w, hw⟩ := ih
      rcases lexeme?_some_iff.mp hl with comment | ⟨noComment, literal⟩
      · exact ⟨_, .comment comment hw⟩
      · exact ⟨_, .literal noComment literal hw⟩
  | char hl first _ ih =>
      obtain ⟨w, hw⟩ := ih
      exact ⟨_, .char hl first hw⟩

theorem Stripped.append {v w : Text} (h : Stripped c v d) {e : Cursor} (h' : Stripped d w e) :
    Stripped c (v ++ w) e := by
  induction h with
  | here => exact h'
  | comment hc _ ih => exact .comment hc (ih h')
  | literal hc hl _ ih =>
      rw [List.append_assoc]
      exact .literal hc hl (ih h')
  | char none first _ ih => exact .char none first (ih h')

theorem Stripped.leadsTo {w : Text} (h : Stripped c w d) : c.LeadsTo d := by
  induction h with
  | here c => exact .refl c
  | comment h _ ih => exact (leadsTo_advance (comment?_bounds h).2).trans ih
  | literal _ hl _ ih => exact (leadsTo_advance (literal?_bounds hl).2).trans ih
  | char _ first _ ih => exact (leadsTo_first first).trans ih

theorem walk_withoutComments {w : Text} {start : Cursor} (h : Stripped c w d) : ∀ texts : List Text,
    walk (Piece.withoutComments.step ⟨start, d.offset⟩) (fun texts _ => .ok texts.reverse.flatten)
      texts c = .ok (texts.reverse.flatten ++ w) := by
  have more {texts : List Text} {v w : Text} :
      (v :: texts).reverse.flatten ++ w = texts.reverse.flatten ++ (v ++ w) := by
    rw [List.reverse_cons, List.flatten_append, List.append_assoc, List.flatten_singleton]
  induction h with
  | here c =>
      intro texts
      rw [List.append_nil]
      by_cases atEnd : c.ahead = []
      · rw [walk_end atEnd]
      · refine walk_stop atEnd ?_
        unfold Piece.withoutComments.step
        rw [if_pos (Nat.le_refl _)]
        rfl
  | @comment c d w n h rest ih =>
      intro texts
      have bounds := comment?_bounds h
      have forward := rest.leadsTo.offset_le
      rw [advance_offset] at forward
      have step : Piece.withoutComments.step ⟨start, d.offset⟩ texts c
          = .ok (.move ([' '] :: texts) n) := by
        unfold Piece.withoutComments.step
        rw [if_neg (by show ¬ d.offset ≤ c.offset; omega), h]
        rfl
      rw [walk_move step bounds.1 bounds.2, ih, more]
      rfl
  | @literal c d w n h hl rest ih =>
      intro texts
      have bounds := literal?_bounds hl
      have forward := rest.leadsTo.offset_le
      rw [advance_offset] at forward
      have whole : c.upTo (min (c.offset + n) d.offset) = c.ahead.take n := by
        rw [Nat.min_eq_left forward, Cursor.upTo, Nat.add_sub_cancel_left]
      have step : Piece.withoutComments.step ⟨start, d.offset⟩ texts c
          = .ok (.move (c.ahead.take n :: texts) n) := by
        unfold Piece.withoutComments.step
        rw [if_neg (by show ¬ d.offset ≤ c.offset; omega), h, hl, ← whole]
        rfl
      rw [walk_move step bounds.1 bounds.2, ih, more]
  | @char c d w ch h first rest ih =>
      intro texts
      have forward := rest.leadsTo.offset_le
      rw [advance_offset] at forward
      obtain ⟨tail, eq⟩ := List.head?_eq_some_iff.mp first
      obtain ⟨noComment, noLiteral⟩ := lexeme?_none_iff.mp h
      have whole : c.upTo (min (c.offset + 1) d.offset) = [ch] := by
        rw [Nat.min_eq_left forward, Cursor.upTo, Nat.add_sub_cancel_left, eq]
        rfl
      have step : Piece.withoutComments.step ⟨start, d.offset⟩ texts c
          = .ok (.move ([ch] :: texts) 1) := by
        unfold Piece.withoutComments.step
        rw [if_neg (by show ¬ d.offset ≤ c.offset; omega), noComment, noLiteral, ← whole]
        rfl
      rw [walk_move step (by omega) (by rw [eq, List.length_cons]; omega), ih, more]
      rfl

/-- **A piece without its comments**, where a reading leads through it. -/
theorem withoutComments_of_stripped {w : Text} (h : Stripped c w d) :
    (Piece.mk c d.offset).withoutComments = .ok w :=
  walk_withoutComments h []

theorem Agree.stripped {w : Text} (h : Agree e e' c c') (hw : Stripped c w d) (le : d.offset ≤ e) :
    ∃ d', Stripped c' w d' ∧ Agree e e' d d' := by
  induction hw generalizing c' with
  | here c => exact ⟨c', .here c', h⟩
  | @comment c d w n hc rest ih =>
      have forward := rest.leadsTo.offset_le
      rw [advance_offset] at forward
      obtain ⟨d', hw', agree⟩ := ih (h.advance (by omega)) le
      exact ⟨d', .comment (h.comment?_some hc (by omega)) hw', agree⟩
  | @literal c d w n hc hl rest ih =>
      have pos := (literal?_bounds hl).1
      have forward := rest.leadsTo.offset_le
      rw [advance_offset] at forward
      obtain ⟨d', hw', agree⟩ := ih (h.advance (by omega)) le
      refine ⟨d', ?_, agree⟩
      rw [← h.take (k := n) (by omega)]
      exact .literal (h.comment?_none (by omega) hc) (h.literal?_some hl (by omega)) hw'
  | @char c d w ch hl first rest ih =>
      have forward := rest.leadsTo.offset_le
      rw [advance_offset] at forward
      obtain ⟨d', hw', agree⟩ := ih (h.advance (by omega)) le
      refine ⟨d', .char (h.lexeme?_none (by omega) hl) ?_ hw', agree⟩
      rw [h.head? (by omega)]
      exact first

end Cursor

/-! ## §3. Fields. -/

namespace Field

/-- The parts of the field that a piece holds: its attributes up to `head`, its visibility up to
`behind`, and from `place` on a label, if it has one, and its type. -/
structure Parts (named : Bool) (piece : Piece) (field : Field) (attrs : List Attribute)
    (visibility : Text) (head behind place : Cursor) (written : Text) : Prop where
  prelude : Prelude piece.start attrs head
  visible : Visibility head visibility behind
  toLabel : Trivia false behind place
  inside : place.offset < piece.stop
  kind : named = (label? (place.upTo piece.stop)).isSome
  type : (Piece.mk (place.advance ((label? (place.upTo piece.stop)).elim 0 (·.2)))
    piece.stop).withoutComments = .ok written
  nonempty : (Text.trim written).isEmpty = false
  eq : field = ⟨(label? (place.upTo piece.stop)).map (·.1), FieldType.ofText (Text.trim written),
    attrs.map (·.text)⟩

/-- **The parts of a field.** -/
theorem read_ok_iff {named : Bool} {piece : Piece} {field : Field} :
    read named piece = .ok field ↔ ∃ attrs visibility head behind place written,
      Parts named piece field attrs visibility head behind place written := by
  unfold read
  constructor
  · intro h
    obtain ⟨⟨attrs, head⟩, prelude, h⟩ := bind_ok_iff.mp h
    obtain ⟨⟨visibility, behind⟩, visible, h⟩ := bind_ok_iff.mp h
    obtain ⟨place, toLabel, h⟩ := bind_ok_iff.mp h
    simp only at h
    split at h
    next => cases h
    next inside =>
      split at h
      next => cases h
      next kind =>
        obtain ⟨written, type, h⟩ := bind_ok_iff.mp h
        split at h
        next => cases h
        next nonempty =>
          cases h
          exact ⟨attrs, visibility, head, behind, place, written, readPrelude_ok_iff.mp prelude,
            readVisibility_ok_iff.mp visible, skipTrivia_ok_iff.mp toLabel, by omega,
            Decidable.not_not.mp kind, type, by simpa using nonempty, rfl⟩
  · rintro ⟨attrs, visibility, head, behind, place, written, parts⟩
    refine bind_ok_iff.mpr ⟨_, readPrelude_ok_iff.mpr parts.prelude, ?_⟩
    refine bind_ok_iff.mpr ⟨_, readVisibility_ok_iff.mpr parts.visible, ?_⟩
    refine bind_ok_iff.mpr ⟨_, skipTrivia_ok_iff.mpr parts.toLabel, ?_⟩
    have inside := parts.inside
    simp only
    rw [if_neg (by omega), if_neg (by rw [ne_eq, Decidable.not_not]; exact parts.kind)]
    refine bind_ok_iff.mpr ⟨written, parts.type, ?_⟩
    rw [if_neg (by rw [parts.nonempty]; exact Bool.false_ne_true), parts.eq]
    rfl

/-- A label ends within the text it stands in, and behind its identifier only blanks lead up to
the colon. -/
theorem label?_some {t name : Text} {n : Nat} (h : label? t = some (name, n)) :
    ∃ blanks rest, t = name ++ blanks ++ ':' :: rest ∧ n = name.length + blanks.length + 1
      ∧ IsIdentifier name ∧ (∀ ch ∈ blanks, isBlank ch = true) := by
  unfold label? at h
  obtain ⟨w, found, h⟩ := Option.bind_eq_some_iff.mp h
  dsimp only at h
  split at h
  next colon =>
    cases h
    rw [Bool.and_eq_true] at colon
    obtain ⟨rest, eq, isIdentifier, _⟩ := Text.identifier?_some found
    have skip : t.drop name.length = rest := by rw [eq, List.drop_left]
    have cut : rest = rest.takeWhile isBlank ++ rest.dropWhile isBlank :=
      List.takeWhile_append_dropWhile.symm
    have behind : t.drop (name.length + Text.blanks (t.drop name.length)) = rest.dropWhile isBlank := by
      rw [← List.drop_drop, skip]
      calc rest.drop (rest.takeWhile isBlank).length
          = (rest.takeWhile isBlank ++ rest.dropWhile isBlank).drop (rest.takeWhile isBlank).length :=
            congrArg _ cut
        _ = rest.dropWhile isBlank := List.drop_left
    rw [behind] at colon
    obtain ⟨tail, tailEq⟩ := List.isPrefixOf_iff_prefix.mp colon.1
    refine ⟨rest.takeWhile isBlank, tail, ?_, ?_, isIdentifier, fun ch mem => ?_⟩
    · rw [eq, List.append_assoc]
      congr 1
      conv_lhs => rw [cut, ← tailEq]
      rfl
    · rw [skip]
      rfl
    · exact List.all_eq_true.mp List.all_takeWhile ch mem
  next => cases h

theorem label_fits {t name : Text} {k : Nat} (h : label? t = some (name, k)) : k ≤ t.length := by
  obtain ⟨blanks, rest, rfl, rfl, _⟩ := label?_some h
  simp only [List.length_append, List.length_cons]
  omega

end Field

namespace Cursor

/-- Blanks are read character by character. -/
theorem reads_blanks {b rest : Text} (eq : c.ahead = b ++ rest) (blank : ∀ ch ∈ b, isBlank ch = true) :
    ∃ code, Reads c code (c.advance b.length) ∧ chars code = b := by
  refine reads_plain eq fun k lt => ?_
  have first : (c.advance k).ahead.head? = some b[k] := by
    rw [advance_ahead, eq, List.head?_drop, List.getElem?_append_left lt,
      List.getElem?_eq_getElem lt]
  exact lexeme?_of_blank first (blank _ (List.getElem_mem lt))

/-- The place behind a label is on the level of the label. -/
theorem Level.label {place : Cursor} {stop n : Nat} {name : Text} (level : Level o place m)
    (h : Field.label? (place.upTo stop) = some (name, n)) :
    Level o (place.advance n) m ∧ place.offset + n ≤ stop ∧ n ≤ place.ahead.length := by
  obtain ⟨blanks, rest, eq, rfl, isIdentifier, blank⟩ := Field.label?_some h
  have long := congrArg List.length eq
  rw [Cursor.upTo, List.length_take, List.length_append, List.length_append, List.length_cons] at long
  obtain ⟨tail, ahead⟩ : ∃ tail, place.ahead = name ++ (blanks ++ ':' :: tail) := by
    refine ⟨rest ++ place.ahead.drop (stop - place.offset), ?_⟩
    conv_lhs => rw [← List.take_append_drop (stop - place.offset) place.ahead]
    rw [Cursor.upTo] at eq
    rw [eq]
    simp
  have named : Level o (place.advance name.length) m := by
    have word {x : Char} {v : Text} (split : blanks ++ ':' :: tail = x :: v)
        (outside : x ≠ '#' ∧ x ≠ '"' ∧ x ≠ 'r' ∧ x ≠ 'b') : Level o (place.advance name.length) m := by
      rw [split] at ahead
      exact level.word ahead isIdentifier.isWord (plainWord_of_stop isIdentifier ahead outside)
    cases blanks with
    | nil => exact word rfl (by decide)
    | cons x v =>
        refine word rfl ⟨?_, ?_, ?_, ?_⟩ <;> intro same <;> subst same <;>
          cases blank _ List.mem_cons_self
  have ahead' : (place.advance name.length).ahead = blanks ++ ':' :: tail := by
    rw [advance_ahead, ahead, List.drop_left]
  obtain ⟨code, reads, hchars⟩ := reads_blanks ahead' blank
  have colon : ((place.advance name.length).advance blanks.length).ahead.head? = some ':' := by
    rw [advance_ahead, ahead', List.drop_left]
    rfl
  have there := named.reads reads
  rw [hchars, level_eq_zero fun ch mem => bracketWeight_of_blank (blank ch mem), Int.add_zero] at there
  have plain : ((place.advance name.length).advance blanks.length).lexeme? = .ok none := by
    refine lexeme?_eq_none fun ch first => ?_
    rw [colon] at first
    cases first
    rfl
  have behind := there.reads (.char plain colon (.here _))
  rw [chars_cons, chars_nil, level_cons, level_nil, show bracketWeight ':' = 0 from rfl, Int.add_zero,
    Int.add_zero, advance_advance, advance_advance, ← Nat.add_assoc] at behind
  exact ⟨behind, by omega, by omega⟩

end Cursor

/-- **The same field** is read of corresponding pieces. -/
theorem Piece.Twin.field {named : Bool} {field : Field} (twin : p.Twin e e' p')
    (sound : p.Sound o m i j) (lt : p.stop < e) (h : Field.read named p = .ok field) :
    Field.read named p' = .ok field := by
  obtain ⟨attrs, visibility, head, behind, place, written, parts⟩ := Field.read_ok_iff.mp h
  have headLe := sound.head_le parts.prelude
  have levelHead := (parts.prelude.laid sound.level.near).level
  have behindLe := sound.visibility_le levelHead parts.visible headLe
  have levelBehind := (parts.visible.spec levelHead).1
  have levelPlace := (parts.toLabel.spec levelBehind.near).1
  have inside := parts.inside
  have stop := twin.stop
  obtain ⟨attrs', head', prelude', agreeHead, twins⟩ := twin.start.prelude parts.prelude (by omega)
  obtain ⟨behind', visible', agreeBehind⟩ :=
    agreeHead.visibility sound levelHead parts.visible headLe (by omega)
  obtain ⟨place', agree, toLabel'⟩ := agreeBehind.trivia parts.toLabel (by omega)
  have placeEq := agree.place
  have same : place'.upTo p'.stop = place.upTo p.stop := agree.upTo (by omega) stop
  have texts : attrs'.map (·.text) = attrs.map (·.text) := by
    clear prelude' parts
    induction twins with
    | nil => rfl
    | cons here _ ih => rw [List.map_cons, List.map_cons, here.text, ih]
  -- the type begins on the level of the piece, so that a reading leads through it
  obtain ⟨levelType, typeLe⟩ : Level o (place.advance
      ((Field.label? (place.upTo p.stop)).elim 0 (·.2))) m
      ∧ place.offset + (Field.label? (place.upTo p.stop)).elim 0 (·.2) ≤ p.stop := by
    cases label : Field.label? (place.upTo p.stop) with
    | none => exact ⟨by rw [Option.elim_none, advance_zero]; exact levelPlace, by
        rw [Option.elim_none]; omega⟩
    | some found =>
        obtain ⟨name, n⟩ := found
        have spec := levelPlace.label label
        exact ⟨spec.1, spec.2.1⟩
  obtain ⟨x, ch, atStop, hx, _⟩ := sound.ended
  obtain ⟨code, reads, _⟩ := levelType.reads_to hx.level (by rw [advance_offset]; omega)
  obtain ⟨w, stripped⟩ := reads.stripped
  have type := withoutComments_of_stripped stripped
  rw [atStop, parts.type] at type
  cases type
  obtain ⟨x', stripped', agreeStop⟩ :=
    (agree.advance (k := (Field.label? (place.upTo p.stop)).elim 0 (·.2)) (by omega)).stripped
      stripped (by omega)
  have stopEq := agreeStop.place
  have type' := withoutComments_of_stripped stripped'
  rw [show x'.offset = p'.stop from by omega] at type'
  refine Field.read_ok_iff.mpr ⟨attrs', visibility, head', behind', place', written, prelude', visible',
    toLabel', by omega, ?_, ?_, parts.nonempty, ?_⟩
  · rw [same]
    exact parts.kind
  · rw [same]
    exact type'
  · rw [same, texts]
    exact parts.eq

namespace Cursor

/-- **The same fields** stand between corresponding brackets. -/
theorem Agree.fields {named : Bool} {fields : List Field} {stop' : Nat} (h : Agree e e' c c')
    (encloses : Encloses c code d) (lt : d.offset < e) (same : stop' + e = d.offset + e')
    (list : Field.readList c d.offset named = .ok fields) :
    Field.readList c' stop' named = .ok fields := by
  obtain ⟨ps, hps, hf⟩ := bind_ok_iff.mp list
  have forward := encloses.lt
  obtain ⟨opener, closer, first, pair, last⟩ := encloses.closes
  have closes := (isCloser_of_closer? pair).1
  have start := Level.start c
  have inner := (start.bracket first (.inl (by rw [pair]; rfl))).next
  have outer := encloses.level_closer start
  rw [bracketWeight, if_pos (by rw [pair]; rfl)] at inner
  have ends := outer.bracket last (.inr closes)
  obtain ⟨ps', hps', twins⟩ := (h.advance (k := 1) (by omega)).pieces encloses.reads lt same inner ends
    closes hps
  have sound := (pieces_sound inner encloses.reads ends closes hps).2
  rw [mapM_ok_iff] at hf
  refine bind_ok_iff.mpr ⟨ps', hps', mapM_ok_iff.mpr ?_⟩
  clear list hps hps'
  induction hf generalizing ps' with
  | nil =>
      cases twins
      exact .nil
  | @cons p field ps fields here _ ih =>
      cases twins with
      | cons twin twins =>
          have bound := (sound p List.mem_cons_self).before
          exact .cons (twin.field (sound p List.mem_cons_self) (by omega) here)
            (ih _ twins fun q mem => sound q (List.mem_cons_of_mem p mem))

end Cursor

end EnumExtract
