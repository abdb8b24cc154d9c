/-
  EnumExtract.Proofs.Inside
  ────────────────────────────────
  What begins inside a piece ends inside it.

  A piece ends at a comma or closer on its own level, and neither is part of a
  word, of trivia, of an attribute or of a scope.

  Main results:
    • `Piece.Sound.head_le`         a prelude ends in its piece,
    • `Piece.Sound.trivia_le`       so do trivia,
    • `Piece.Sound.identifier_le`   an identifier,
    • `Piece.Sound.visibility_le`   and a visibility.
-/
import EnumExtract.Proofs.Names
import EnumExtract.Proofs.Pieces
import EnumExtract.Proofs.Prelude

namespace EnumExtract

open Cursor

variable {o c d head : Cursor} {p : Piece} {i j : Nat} {m k : Int}

/-- The prelude of a piece ends in the piece. -/
theorem Piece.Sound.head_le {attrs : List Attribute}
    (sound : p.Sound o m i j) (prelude : Prelude p.start attrs head) : head.offset ≤ p.stop := by
  obtain ⟨x, ch, stop, hx, ends⟩ := sound.ended
  have laid := prelude.laid sound.level.near
  rcases Nat.lt_or_ge x.offset head.offset with inside | after
  · have forward := sound.forward
    rcases laid.code hx (by omega) inside with blank | ⟨a, _, ⟨q, hq⟩, le, lt⟩
    · rcases ends with rfl | closes
      · cases blank
      · rw [isBracket_not_blank (.inr closes)] at blank
        cases blank
    · have start := hq.start
      obtain ⟨rest, eq⟩ := sees_iff.mp hq.sees
      have onward := hq.code.level.leadsTo.of_le hx.level.leadsTo (by omega)
      rcases Nat.lt_or_ge (a.start + 1) x.offset with deep | shallow
      · have := hq.deeper hx.level deep lt
        omega
      · -- the first two characters of an attribute end no piece
        have first := hx.first
        rw [onward.eq_advance, advance_ahead, eq] at first
        rcases Nat.lt_or_ge a.start x.offset with second | here
        · rw [show x.offset - q.offset = 1 from by omega] at first
          cases first
          rcases ends with ends | ends <;> cases ends
        · rw [show x.offset - q.offset = 0 from by omega] at first
          cases first
          rcases ends with ends | ends <;> cases ends
  · omega

/-- A word stands at no end of a piece. -/
theorem Piece.Sound.not_word (sound : p.Sound o m i j) {w : Text} {after : Cursor}
    (level : Level o c k) (h : c.identifier? = some (w, after)) : c.offset ≠ p.stop := by
  intro same
  obtain ⟨x, ch, stop, hx, ends⟩ := sound.ended
  have eq : c = x := level.eq_of_offset hx.level (by omega)
  subst eq
  obtain ⟨ch', first, word⟩ := isWord_of_identifier? h
  rw [hx.first] at first
  cases first
  rcases ends with rfl | closes
  · cases word
  · have weight := bracketWeight_of_isWord (.inl word)
    rw [bracketWeight, closer?_of_isCloser closes, closes] at weight
    cases weight

/-- Trivia does not lead past the end of a piece. -/
theorem Piece.Sound.trivia_le (sound : p.Sound o m i j) {keepDocs : Bool} (level : Level o c k)
    (h : Trivia keepDocs c d) (le : c.offset ≤ p.stop) : d.offset ≤ p.stop := by
  obtain ⟨x, ch, stop, hx, ends⟩ := sound.ended
  rcases Nat.lt_or_ge x.offset d.offset with past | before
  · have blank : isBlank ch = true := (h.spec level.near).2 hx (by omega) past
    rcases ends with rfl | closes
    · cases blank
    · rw [isBracket_not_blank (.inr closes)] at blank
      cases blank
  · omega

/-- The character that ends a piece is part of no identifier. -/
theorem Piece.Sound.identifier_le (sound : p.Sound o m i j) {w : Text} {after : Cursor}
    (onward : o.LeadsTo c) (h : c.identifier? = some (w, after)) (le : c.offset ≤ p.stop) :
    after.offset ≤ p.stop := by
  obtain ⟨x, ch, stop, hx, ends⟩ := sound.ended
  obtain ⟨hw, rfl⟩ := identifier?_eq_some h
  obtain ⟨rest, eq, isIdentifier, _⟩ := Text.identifier?_some hw
  rcases Nat.lt_or_ge p.stop (c.advance w.length).offset with past | ok
  · exfalso
    rw [advance_offset] at past
    have there := (onward.of_le hx.level.leadsTo (by omega)).eq_advance
    have first := hx.first
    rw [there, advance_ahead, eq, List.head?_drop, List.getElem?_append_left (by omega)] at first
    have word := isIdentifier.isWord ch (List.mem_of_getElem? first)
    rcases ends with rfl | closes
    · rcases word with word | word <;> cases word
    · have weight := bracketWeight_of_isWord word
      rw [bracketWeight, closer?_of_isCloser closes, closes] at weight
      cases weight
  · exact ok

/-- A bracket that opens on the level of a piece, inside it, closes inside it. -/
theorem Piece.Sound.closing_lt (sound : p.Sound o m i j) (level : Level o c m)
    {code : List (Cursor × Char)} (h : Encloses c code d) (lt : c.offset < p.stop) :
    d.offset < p.stop := by
  obtain ⟨x, ch, stop, hx, ends⟩ := sound.ended
  rcases Nat.lt_or_ge d.offset p.stop with inside | past
  · exact inside
  · have deeper := h.deeper level hx.level (by omega) (by omega)
    omega

theorem pub_plain {after : Cursor} (h : c.identifier? = some (("pub" : Text), after)) :
    c.PlainWord "pub" := by
  obtain ⟨hw, _⟩ := identifier?_eq_some h
  obtain ⟨rest, eq, _⟩ := Text.identifier?_some hw
  exact plainWord_of_isKeyword eq (by decide)

/-- A piece does not end where a bracket opens. -/
theorem Piece.Sound.lt_of_opens (sound : p.Sound o m i j) (level : Level o c k) {ch : Char}
    (first : c.ahead.head? = some ch) (opens : (closer? ch).isSome = true)
    (le : c.offset ≤ p.stop) : c.offset < p.stop := by
  obtain ⟨x, ch', stop, hx, ends⟩ := sound.ended
  refine Nat.lt_of_le_of_ne le fun same => ?_
  have eq : c = x := level.eq_of_offset hx.level (by omega)
  subst eq
  rw [hx.first] at first
  cases first
  rcases ends with rfl | closes
  · cases opens
  · rw [closer?_of_isCloser closes] at opens
    cases opens

/-- A visibility on the level of a piece ends in it. -/
theorem Piece.Sound.visibility_le (sound : p.Sound o m i j) (level : Level o c m) {v : Text}
    (h : Visibility c v d) (le : c.offset ≤ p.stop) : d.offset ≤ p.stop := by
  cases h with
  | none _ => exact le
  | bare pub toScope noScope => exact sound.identifier_le level.leadsTo pub le
  | @within after scope n pub toScope found =>
      have behind := sound.identifier_le level.leadsTo pub le
      have levelAfter := level.identifier pub (pub_plain pub)
      have levelScope := (toScope.spec levelAfter.near).1
      have scopeLe := sound.trivia_le levelAfter toScope behind
      obtain ⟨close, code, encloses, next, _⟩ := exists_encloses_scope found
      obtain ⟨opener, closer, first, pair, _⟩ := encloses.closes
      have lt := sound.lt_of_opens levelScope first (by rw [pair]; rfl) scopeLe
      have inside := sound.closing_lt levelScope encloses lt
      rw [← next, advance_offset]
      exact inside

end EnumExtract
