/-
  EnumExtract.Proofs.Levels
  ────────────────────────────────
  How deep in brackets the places of a text are.

  All places that the readers come to are places of one reading, the one from
  the start of the text.  `Level o c d` says that the reading from `o` comes to
  `c` and has then opened `d` more brackets than it has closed.  What a reader
  looks for ends where the level falls back to that of its start, so places
  found by different readers are told apart by their levels.

  Main results:
    • `Level.unique`       a place has one level,
    • `Encloses.deeper`    inside a bracket everything is deeper than outside,
    • `CodeAt.mem`         a character of code is passed by every reading that
                           goes past it.
-/
import EnumExtract.Proofs.Reading

namespace EnumExtract.Cursor

variable {o c e x : Cursor} {code : List (Cursor × Char)} {ch : Char} {d m : Int}

/-! ## §1. The level of a place. -/

/-- Reading from `o` comes to `c`, where it is `d` brackets deep. -/
def Level (o c : Cursor) (d : Int) : Prop :=
  ∃ code, Reads o code c ∧ level (chars code) = d

theorem Level.start (o : Cursor) : Level o o 0 :=
  ⟨[], .here o, rfl⟩

theorem Level.leadsTo (h : Level o c d) : o.LeadsTo c := by
  obtain ⟨code, reads, _⟩ := h
  exact reads.leadsTo

theorem Level.eq_of_offset (h : Level o c d) (h' : Level o e m) (same : c.offset = e.offset) :
    c = e :=
  h.leadsTo.eq_of_offset h'.leadsTo same

theorem Level.reads (h : Level o c d) (r : Reads c code e) :
    Level o e (d + level (chars code)) := by
  obtain ⟨before, reads, rfl⟩ := h
  exact ⟨before ++ code, reads.trans r, by rw [chars_append, level_append]⟩

/-- Of two places of a reading the later one is read from the earlier one. -/
theorem Level.reads_to (h : Level o c d) (h' : Level o e m) (le : c.offset ≤ e.offset) :
    ∃ code, Reads c code e ∧ m = d + level (chars code) := by
  obtain ⟨before, reads, rfl⟩ := h
  obtain ⟨all, reads', rfl⟩ := h'
  obtain ⟨code, rfl, tail⟩ := reads.split reads' le
  exact ⟨code, tail, by rw [chars_append, level_append]⟩

/-- A place has one level. -/
theorem Level.unique (h : Level o c d) (h' : Level o c m) : d = m := by
  obtain ⟨code, tail, rfl⟩ := h.reads_to h' (Nat.le_refl _)
  rw [(tail.eq_nil (Nat.le_refl _)).1, chars_nil, level_nil, Int.add_zero]

/-! ## §2. Characters of code. -/

/-- The character `ch` stands at `x`, a place of the reading from `o` that is `d` brackets
deep, and belongs to no lexeme. -/
structure CodeAt (o x : Cursor) (ch : Char) (d : Int) : Prop where
  level : Level o x d
  plain : x.lexeme? = .ok none
  first : x.ahead.head? = some ch

theorem CodeAt.reads (h : CodeAt o x ch d) : Reads x [(x, ch)] (x.advance 1) :=
  .char h.plain h.first (.here _)

theorem CodeAt.next (h : CodeAt o x ch d) : Level o (x.advance 1) (d + bracketWeight ch) := by
  have after := h.level.reads h.reads
  rwa [chars_cons, chars_nil, level_cons, level_nil, Int.add_zero] at after

/-- A bracket is code wherever a reading comes to it. -/
theorem Level.bracket (h : Level o x d) (first : x.ahead.head? = some ch)
    (bracket : (closer? ch).isSome = true ∨ isCloser ch = true) : CodeAt o x ch d :=
  ⟨h, lexeme?_of_bracket first bracket, first⟩

/-- A character of code is passed by every reading that goes past it. -/
theorem CodeAt.mem (hx : CodeAt o x ch m) (hc : Level o c d) (r : Reads c code e)
    (le : c.offset ≤ x.offset) (lt : x.offset < e.offset) :
    ∃ before after, code = before ++ (x, ch) :: after ∧ m = d + EnumExtract.level (chars before) := by
  obtain ⟨before, reads, eq⟩ := hc.reads_to hx.level le
  obtain ⟨rest, rfl, tail⟩ := reads.split r (Nat.le_of_lt lt)
  cases tail with
  | here => exact absurd lt (Nat.lt_irrefl _)
  | lexeme h _ =>
      rw [hx.plain] at h
      cases h
  | char _ first _ =>
      rw [hx.first] at first
      cases first
      exact ⟨before, _, rfl, eq⟩

/-- What a reading passes is code. -/
theorem Level.codeAt_of_mem (hc : Level o c d) (r : Reads c code e) {x : Cursor × Char}
    (mem : x ∈ code) : ∃ m, CodeAt o x.1 x.2 m := by
  obtain ⟨before, after, rfl⟩ := List.append_of_mem mem
  obtain ⟨reads, plain, first, _⟩ := r.at_mem
  exact ⟨_, hc.reads reads, plain, first⟩

/-! ## §3. Inside a bracket. -/

theorem Encloses.level_closer (h : Encloses c code e) (hc : Level o c d) : Level o e (d + 1) := by
  obtain ⟨opener, closer, first, hcloser, _⟩ := h.closes
  have inside := (hc.bracket first (.inl (by rw [hcloser]; rfl))).next.reads h.reads
  have count := length_of_nest h.nests
  rw [bracketWeight, hcloser] at inside
  simp only [Option.isSome_some, if_true, List.length_nil] at inside count
  rwa [show d + 1 + level (chars code) = d + 1 from by omega] at inside

theorem Encloses.level_after (h : Encloses c code e) (hc : Level o c d) :
    Level o (e.advance 1) d := by
  obtain ⟨opener, closer, _, hcloser, last⟩ := h.closes
  have close := (isCloser_of_closer? hcloser).1
  have after := ((h.level_closer hc).bracket last (.inr close)).next
  rw [bracketWeight, closer?_of_isCloser close, close] at after
  simp only [Option.isSome_none, Bool.false_eq_true, if_false, if_true] at after
  rwa [show d + 1 + -1 = d from by omega] at after

/-- Inside a bracket everything is deeper than outside. -/
theorem Encloses.deeper (h : Encloses c code e) (hc : Level o c d) (hx : Level o x m)
    (lt : c.offset < x.offset) (le : x.offset ≤ e.offset) : d + 1 ≤ m := by
  obtain ⟨opener, closer, first, hcloser, _⟩ := h.closes
  have inside := (hc.bracket first (.inl (by rw [hcloser]; rfl))).next
  rw [bracketWeight, hcloser] at inside
  obtain ⟨before, reads, rfl⟩ := inside.reads_to hx lt
  obtain ⟨rest, rfl, _⟩ := reads.split h.reads le
  have nests := h.nests
  rw [chars_append] at nests
  obtain ⟨between, nested, _⟩ := nest_append nests
  have count := length_of_nest nested
  simp only [Option.isSome_some, if_true, List.length_nil] at count ⊢
  omega

theorem Encloses.leadsTo (h : Encloses c code e) : c.LeadsTo (e.advance 1) := by
  obtain ⟨opener, closer, first, hcloser, last⟩ := h.closes
  exact ((leadsTo_first first).trans h.reads.leadsTo).trans (leadsTo_first last)

/-- A bracket is read with what it encloses. -/
theorem Encloses.reads_whole (h : Encloses c code e) :
    ∃ opener closer, closer? opener = some closer
      ∧ Reads c ((c, opener) :: (code ++ [(e, closer)])) (e.advance 1) := by
  obtain ⟨opener, closer, first, pair, last⟩ := h.closes
  have ends := Reads.char (lexeme?_of_bracket last (.inr (isCloser_of_closer? pair).1)) last (.here (e.advance 1))
  exact ⟨opener, closer, pair,
    .char (lexeme?_of_bracket first (.inl (by rw [pair]; rfl))) first (h.reads.trans ends)⟩

/-- The closer stands behind its opener. -/
theorem Encloses.lt (h : Encloses c code e) : c.offset < e.offset := by
  have := h.reads.offset_le
  rw [advance_offset] at this
  omega

end EnumExtract.Cursor
