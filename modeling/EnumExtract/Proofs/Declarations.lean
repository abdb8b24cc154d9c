/-
  EnumExtract.Proofs.Declarations
  ────────────────────────────────
  What the readers of declarations have found, and how far a declaration
  reaches.

  Main results:
    • `EnumDecl.read_ok_iff`   the parts of an enum,
    • `StructDecl.endsAt`      a struct ends at a semicolon or brace,
    • `EndsAt.extent`          between its name and its end a declaration holds
                               nothing on its own level but its brackets.
-/
import EnumExtract.Proofs.Pieces
import EnumExtract.Proofs.Variants
import EnumExtract.Schema.EnumDecl
import EnumExtract.Schema.StructDecl

namespace EnumExtract

open Cursor

/-! ## §1. The end of a declaration. -/

/-- The declaration `item` of `source` ends at offset `stop`: just behind a semicolon, perhaps
after a pair of parentheses, or just behind the brace that closes its body. -/
inductive Item.EndsAt (source : Text) (item : Item) : Nat → Prop where
  | semicolon {body : Cursor} (toBody : Trivia false (source.cursor item.bodyIndex) body)
      (sees : body.sees ";" = true) : EndsAt source item (body.offset + 1)
  | braces {body close : Cursor} (toBody : Trivia false (source.cursor item.bodyIndex) body)
      (sees : body.sees "\x7b" = true) (closing : body.closing = .ok close) :
      EndsAt source item (close.offset + 1)
  | parentheses {body close semicolon : Cursor}
      (toBody : Trivia false (source.cursor item.bodyIndex) body)
      (sees : body.sees "(" = true) (closing : body.closing = .ok close)
      (toSemicolon : Trivia false (close.advance 1) semicolon)
      (ends : semicolon.sees ";" = true) : EndsAt source item (semicolon.offset + 1)

/-- The stretch of a reading from offset `i` to offset `j`, both of them on the level `m`: what
is neither blank nor a bracket in it is deeper, but for its last character. -/
structure Extent (o : Cursor) (i j : Nat) (m : Int) : Prop where
  stop : ∃ c, Level o c m ∧ c.offset = j
  last : ∃ x ch k, CodeAt o x ch k ∧ x.offset + 1 = j ∧ i ≤ x.offset ∧ (ch = ';' ∨ ch = '}')
  inside : ∀ ⦃x : Cursor⦄ ⦃ch : Char⦄ ⦃k : Int⦄, CodeAt o x ch k → i ≤ x.offset →
    x.offset + 1 < j → isBlank ch = true ∨ (closer? ch).isSome = true ∨ isCloser ch = true
      ∨ m + 1 ≤ k

/-- A semicolon is code wherever a reading comes to it. -/
theorem Cursor.Level.semicolon {o c : Cursor} {m : Int} (h : Level o c m)
    (sees : c.sees ";" = true) : CodeAt o c ';' m := by
  have first : c.ahead.head? = some ';' := first_of_sees sees
  refine ⟨h, lexeme?_eq_none fun ch first' => ?_, first⟩
  rw [first] at first'
  cases first'
  rfl

section Extents

variable {o : Cursor} {source : Text} {item : Item} {stop : Nat} {m : Int}

theorem Extent.of_blank {i : Nat} {x : Cursor} (blank : BlankCode o i x.offset)
    (le : i ≤ x.offset) (code : CodeAt o x ';' m) : Extent o i (x.offset + 1) m := by
  refine ⟨⟨x.advance 1, ?_, rfl⟩, ⟨x, ';', m, code, rfl, le, .inl rfl⟩, fun y ch k hy le lt => ?_⟩
  · have next := code.next
    rwa [show bracketWeight ';' = 0 from rfl, Int.add_zero] at next
  · exact .inl (blank hy le (by omega))

/-- **A declaration holds nothing on its own level but its brackets.** -/
theorem Item.EndsAt.extent (h : item.EndsAt source stop)
    (level : Level o (source.cursor item.bodyIndex) m) : Extent o item.bodyIndex stop m := by
  cases h with
  | semicolon toBody sees =>
      obtain ⟨hbody, blank⟩ := toBody.spec level.near
      exact .of_blank blank toBody.leadsTo.offset_le (hbody.semicolon sees)
  | @braces body close toBody sees closing =>
      obtain ⟨hbody, blank⟩ := toBody.spec level.near
      obtain ⟨code, encloses⟩ := closing_ok_iff.mp closing
      have lt := encloses.lt
      have le : item.bodyIndex ≤ body.offset := toBody.leadsTo.offset_le
      have first : body.ahead.head? = some '{' := first_of_sees sees
      obtain ⟨opener, closer, first', hcloser, last⟩ := encloses.closes
      rw [first] at first'
      cases first'
      cases hcloser
      refine ⟨⟨_, encloses.level_after hbody, rfl⟩, ⟨close, '}', _,
        (encloses.level_closer hbody).bracket last (.inr rfl), rfl, by omega, .inr rfl⟩, ?_⟩
      intro y ch k hy le' lt'
      rcases Nat.lt_trichotomy y.offset body.offset with before | same | behind
      · exact .inl (blank hy le' before)
      · have : y = body := hy.level.eq_of_offset hbody same
        subst this
        have eq := hy.first
        rw [first] at eq
        cases eq
        exact .inr (.inl rfl)
      · exact .inr (.inr (.inr (encloses.deeper hbody hy.level behind (by omega))))
  | @parentheses body close semicolon toBody sees closing toSemicolon ends =>
      obtain ⟨hbody, blank⟩ := toBody.spec level.near
      obtain ⟨code, encloses⟩ := closing_ok_iff.mp closing
      have lt := encloses.lt
      have le : item.bodyIndex ≤ body.offset := toBody.leadsTo.offset_le
      have first : body.ahead.head? = some '(' := first_of_sees sees
      obtain ⟨opener, closer, first', hcloser, last⟩ := encloses.closes
      rw [first] at first'
      cases first'
      cases hcloser
      obtain ⟨hsemicolon, blank'⟩ := toSemicolon.spec (encloses.level_after hbody).near
      have le' := toSemicolon.leadsTo.offset_le
      rw [advance_offset] at le' blank'
      have code := hsemicolon.semicolon ends
      have end' := code.next
      rw [show bracketWeight ';' = 0 from rfl, Int.add_zero] at end'
      refine ⟨⟨_, end', rfl⟩, ⟨semicolon, ';', m, code, rfl, by omega, .inl rfl⟩, ?_⟩
      intro y ch k hy le'' lt'
      rcases Nat.lt_trichotomy y.offset body.offset with before | same | behind
      · exact .inl (blank hy le'' before)
      · have : y = body := hy.level.eq_of_offset hbody same
        subst this
        have eq := hy.first
        rw [first] at eq
        cases eq
        exact .inr (.inl rfl)
      · by_cases inside : y.offset ≤ close.offset
        · exact .inr (.inr (.inr (encloses.deeper hbody hy.level behind inside)))
        · exact .inl (blank' hy (by omega) (by omega))

end Extents

/-! ## §2. Structs. -/

/-- **A struct ends at a semicolon or brace.** -/
theorem StructDecl.endsAt {source : Text} {item : Item} {struct : StructDecl}
    (h : read source item = .ok struct) : item.EndsAt source struct.stop := by
  rw [read] at h
  obtain ⟨body, toBody, h⟩ := bind_ok_iff.mp h
  rw [skipTrivia_ok_iff] at toBody
  split at h
  next => cases h
  next =>
    obtain ⟨⟨fields, stop⟩, hbody, h⟩ := bind_ok_iff.mp h
    obtain ⟨shape, _, h⟩ := bind_ok_iff.mp h
    obtain ⟨metadata, _, h⟩ := bind_ok_iff.mp h
    cases h
    rw [readBody] at hbody
    split at hbody
    next sees =>
      cases hbody
      exact .semicolon toBody sees
    next =>
      split at hbody
      next sees =>
        obtain ⟨close, closing, hbody⟩ := bind_ok_iff.mp hbody
        obtain ⟨fields', _, hbody⟩ := bind_ok_iff.mp hbody
        obtain ⟨semicolon, toSemicolon, hbody⟩ := bind_ok_iff.mp hbody
        split at hbody
        next => cases hbody
        next ends =>
          cases hbody
          exact .parentheses toBody sees closing (skipTrivia_ok_iff.mp toSemicolon) (by simpa using ends)
      next =>
        split at hbody
        next sees =>
          obtain ⟨close, closing, hbody⟩ := bind_ok_iff.mp hbody
          obtain ⟨fields', _, hbody⟩ := bind_ok_iff.mp hbody
          cases hbody
          exact .braces toBody sees closing
        next => cases hbody

theorem StructDecl.name_eq {source : Text} {item : Item} {struct : StructDecl}
    (h : read source item = .ok struct) : struct.name = item.name := by
  rw [read] at h
  obtain ⟨body, _, h⟩ := bind_ok_iff.mp h
  split at h
  next => cases h
  next =>
    obtain ⟨⟨fields, stop⟩, _, h⟩ := bind_ok_iff.mp h
    obtain ⟨shape, _, h⟩ := bind_ok_iff.mp h
    obtain ⟨metadata, _, h⟩ := bind_ok_iff.mp h
    cases h
    rfl

/-! ## §3. Enums. -/

namespace EnumDecl

/-- The parts of the enum that `item` declares: its body from `body` to `close`, cut into
`pieces`. -/
structure Parts (source : Text) (item : Item) (enum : EnumDecl) (body close : Cursor)
    (pieces : List Piece) : Prop where
  toBody : Trivia false (source.cursor item.bodyIndex) body
  opens : body.sees "\x7b" = true
  closing : body.closing = .ok close
  cut : (body.advance 1).pieces close.offset = .ok pieces
  variants : Variant.readAll source pieces = .ok enum.variants
  attributes : item.attrs.foldlM (addAttribute source) ([], []) = .ok (enum.metadata, enum.deriveEdits)
  name : enum.name = item.name
  visibility : enum.visibility = item.visibility
  start : enum.start = item.start
  stop : enum.stop = close.offset + 1
  directives : enum.directives
    = (item.attrs.filter (directivePaths.contains ·.path)).map (·.span)
        ++ enum.variants.flatMap (·.directives)

theorem read_ok_iff {source : Text} {item : Item} {enum : EnumDecl} :
    read source item = .ok enum ↔ ∃ body close pieces, Parts source item enum body close pieces := by
  constructor
  · intro h
    rw [read] at h
    obtain ⟨body, toBody, h⟩ := bind_ok_iff.mp h
    simp only at h
    split at h
    next => cases h
    next =>
      split at h
      next => cases h
      next opens =>
        obtain ⟨close, closing, h⟩ := bind_ok_iff.mp h
        obtain ⟨variants, hbody, h⟩ := bind_ok_iff.mp h
        obtain ⟨pieces, cut, hvariants⟩ := Variant.readBody_ok_iff.mp hbody
        obtain ⟨⟨metadata, deriveEdits⟩, hattrs, h⟩ := bind_ok_iff.mp h
        cases h
        exact ⟨body, close, pieces, skipTrivia_ok_iff.mp toBody, by simpa using opens, closing, cut,
          hvariants, hattrs, rfl, rfl, rfl, rfl, rfl⟩
  · rintro ⟨body, close, pieces, parts⟩
    have first := first_of_sees parts.opens
    have noAngle : body.sees "<" = false := by
      rw [Bool.eq_false_iff]
      intro sees
      have := first_of_sees sees
      rw [first] at this
      cases this
    rw [read]
    refine bind_ok_iff.mpr ⟨body, skipTrivia_ok_iff.mpr parts.toBody, ?_⟩
    simp only [noAngle, parts.opens, Bool.not_true, Bool.false_eq_true, if_false]
    refine bind_ok_iff.mpr ⟨close, parts.closing, ?_⟩
    refine bind_ok_iff.mpr ⟨_, Variant.readBody_ok_iff.mpr ⟨pieces, parts.cut, parts.variants⟩, ?_⟩
    refine bind_ok_iff.mpr ⟨_, parts.attributes, ?_⟩
    rw [pure_ok_iff]
    obtain ⟨name, visibility, variants, metadata, start, stop, directives, deriveEdits⟩ := enum
    simp only [mk.injEq, true_and, and_true]
    exact ⟨parts.name.symm, parts.visibility.symm, parts.start.symm, parts.stop.symm,
      parts.directives.symm⟩

theorem Parts.endsAt {source : Text} {item : Item} {enum : EnumDecl} {body close : Cursor}
    {pieces : List Piece} (h : Parts source item enum body close pieces) :
    item.EndsAt source enum.stop := by
  rw [h.stop]
  exact .braces h.toBody h.opens h.closing

end EnumDecl

end EnumExtract
