/-
  EnumExtract.Proofs.Pieces
  ────────────────────────────────
  Cutting a list at its top-level commas.

  What `allPieces` does with a stretch of text depends on its code only:
  `Cutting.over` runs the state of the cutting over the code of a reading.
  The invariant of that run is `Cutting.Sound`.  Its depth is the level of the
  place at hand, so every piece starts on the level of the list and ends at a
  character of code on that level.

  Main results:
    • `allPieces_of_reads`   the pieces up to the end of a reading,
    • `pieces_sound`         pieces follow one another on the level of the list.
-/
import EnumExtract.Proofs.Trivia
import EnumExtract.Source.Piece

namespace EnumExtract

open Cursor

/-! ## §1. Cutting over the code of a reading. -/

/-- The state of a cutting after the characters `code`. -/
def Cutting.over (s : Cutting) (code : List (Cursor × Char)) : Cutting :=
  code.foldl (fun s x => s.read x.1 x.2) s

@[simp] theorem Cutting.over_nil (s : Cutting) : s.over [] = s :=
  rfl

@[simp] theorem Cutting.over_cons (s : Cutting) (x : Cursor × Char) (code : List (Cursor × Char)) :
    s.over (x :: code) = (s.read x.1 x.2).over code :=
  rfl

@[simp] theorem Cutting.over_append (s : Cutting) (code more : List (Cursor × Char)) :
    s.over (code ++ more) = (s.over code).over more :=
  List.foldl_append

/-- A character cuts the list, or it leaves the piece at hand as it is. -/
theorem Cutting.read_cases (s : Cutting) (place : Cursor) (ch : Char) :
    ((s.read place ch).found = s.found ∧ (s.read place ch).start = s.start)
      ∨ (ch = ',' ∧ s.depth = 0 ∧ s.angle = 0
        ∧ s.read place ch = ⟨⟨s.start, place.offset⟩ :: s.found, place.advance 1, 0, 0⟩) := by
  by_cases cuts : ch = ',' ∧ s.depth = 0 ∧ s.angle = 0
  · obtain ⟨rfl, depth, angle⟩ := cuts
    refine .inr ⟨rfl, depth, angle, ?_⟩
    simp [Cutting.read, closer?, isCloser, depth, angle]
  · refine .inl ?_
    unfold Cutting.read
    split
    · exact ⟨rfl, rfl⟩
    · split
      · exact ⟨rfl, rfl⟩
      · split
        · exact ⟨rfl, rfl⟩
        next depth =>
          split
          · exact ⟨rfl, rfl⟩
          · split
            · exact ⟨rfl, rfl⟩
            · split
              next both =>
                rw [Bool.and_eq_true, decide_eq_true_iff, decide_eq_true_iff] at both
                exact absurd ⟨both.1, Decidable.not_not.mp depth, both.2⟩ cuts
              · exact ⟨rfl, rfl⟩

theorem Cutting.depth_read (s : Cutting) (place : Cursor) (ch : Char) :
    (s.read place ch).depth = s.depth + bracketWeight ch := by
  unfold Cutting.read bracketWeight
  split
  · rfl
  · split
    · rfl
    · rw [Int.add_zero]
      split
      · rfl
      · split
        · rfl
        · split
          · rfl
          · split <;> rfl

namespace Cursor

variable {c d : Cursor} {code : List (Cursor × Char)}

theorem allPieces_step_lexeme {stop n : Nat} {s : Cutting} (before : c.offset < stop)
    (h : c.lexeme? = .ok (some n)) : allPieces.step stop s c = .ok (.move s n) := by
  rw [allPieces.step, if_neg (by omega), h]
  rfl

theorem allPieces_step_char {stop : Nat} {s : Cutting} {ch : Char} (before : c.offset < stop)
    (h : c.lexeme? = .ok none) (first : c.ahead.head? = some ch) :
    allPieces.step stop s c = .ok (.move (s.read c ch) 1) := by
  obtain ⟨rest, eq⟩ := List.head?_eq_some_iff.mp first
  rw [allPieces.step, if_neg (by omega), h, eq]
  rfl

/-- A step of the cutting ends it behind the list, it passes a lexeme, or it reads one character. -/
theorem allPieces_step_ok {stop : Nat} {s : Cutting} {next : Step Cutting (List Piece)}
    (more : c.ahead ≠ []) (h : allPieces.step stop s c = .ok next) :
    (stop ≤ c.offset ∧ next = .stop (s.pieces stop))
      ∨ (∃ n, c.offset < stop ∧ c.lexeme? = .ok (some n) ∧ next = .move s n)
      ∨ ∃ ch, c.offset < stop ∧ c.lexeme? = .ok none ∧ c.ahead.head? = some ch
          ∧ next = .move (s.read c ch) 1 := by
  obtain ⟨ch, rest, eq⟩ := List.exists_cons_of_ne_nil more
  have first : c.ahead.head? = some ch := by rw [eq, List.head?_cons]
  rcases Nat.lt_or_ge c.offset stop with before | behind
  · cases hl : c.lexeme? with
    | error fault =>
        rw [allPieces.step, if_neg (by omega), hl] at h
        cases h
    | ok length? =>
        cases length? with
        | some n =>
            rw [allPieces_step_lexeme before hl] at h
            cases h
            exact .inr (.inl ⟨n, before, rfl, rfl⟩)
        | none =>
            rw [allPieces_step_char before hl first] at h
            cases h
            exact .inr (.inr ⟨ch, before, rfl, first, rfl⟩)
  · rw [allPieces.step, if_pos behind] at h
    cases h
    exact .inl ⟨behind, rfl⟩

theorem allPieces_step_steady (stop : Nat) : Steady (allPieces.step stop) := by
  intro s c s' n more h
  rcases allPieces_step_ok more h with ⟨_, ⟨⟩⟩ | ⟨_, _, lexeme, ⟨⟩⟩ | ⟨_, _, _, _, ⟨⟩⟩
  · exact lexeme?_bounds lexeme
  · exact ⟨Nat.one_pos, List.length_pos_iff.mpr more⟩

theorem walk_allPieces_of_reads (h : Reads c code d) (s : Cutting) :
    walk (allPieces.step d.offset) (fun s _ => .ok (s.pieces d.offset)) s c
      = .ok ((s.over code).pieces d.offset) := by
  induction h generalizing s with
  | here c =>
      by_cases atEnd : c.ahead = []
      · rw [walk_end atEnd, Cutting.over_nil]
      · refine walk_stop atEnd ?_
        rw [allPieces.step, if_pos (Nat.le_refl _)]
        rfl
  | @lexeme c d code n h rest ih =>
      have ahead := rest.offset_le
      have bounds := lexeme?_bounds h
      rw [advance_offset] at ahead
      rw [walk_move (allPieces_step_lexeme (by omega) h) bounds.1 bounds.2, ih]
  | @char c d code ch h first rest ih =>
      have ahead := rest.offset_le
      rw [advance_offset] at ahead
      obtain ⟨tail, eq⟩ := List.head?_eq_some_iff.mp first
      rw [walk_move (allPieces_step_char (by omega) h first) (by omega)
        (by rw [eq, List.length_cons]; omega), ih, Cutting.over_cons]

/-- **The pieces up to the end of a reading are cut by its code.** -/
theorem allPieces_of_reads (h : Reads c code d) :
    c.allPieces d.offset = .ok ((Cutting.over ⟨[], c, 0, 0⟩ code).pieces d.offset) :=
  walk_allPieces_of_reads h _

end Cursor

/-! ## §2. Where pieces start and end. -/

/-- A piece of the list between offsets `i` and `j` whose level is `m`: it starts on the
level of the list, and a comma or closer on that level ends it. -/
structure Piece.Sound (o : Cursor) (m : Int) (i j : Nat) (p : Piece) : Prop where
  level : Level o p.start m
  after : i ≤ p.start.offset
  forward : p.start.offset ≤ p.stop
  before : p.stop ≤ j
  ended : ∃ x ch, x.offset = p.stop ∧ CodeAt o x ch m ∧ (ch = ',' ∨ isCloser ch = true)

/-- The state of a cutting at `x`, which has started at offset `i` on the level `m`. -/
structure Cutting.Sound (o : Cursor) (m : Int) (i : Nat) (x : Cursor) (s : Cutting) : Prop where
  depth : Level o x (m + s.depth)
  level : Level o s.start m
  after : i ≤ s.start.offset
  forward : s.start.offset ≤ x.offset
  found : ∀ p ∈ s.found, p.Sound o m i x.offset ∧ p.stop < s.start.offset
  order : s.found.Pairwise fun later p => p.stop < later.start.offset

variable {o x c d : Cursor} {m : Int} {i j : Nat}

theorem Piece.Sound.mono {p : Piece} {k : Nat} (h : p.Sound o m i j) (le : j ≤ k) :
    p.Sound o m i k :=
  ⟨h.level, h.after, h.forward, Nat.le_trans h.before le, h.ended⟩

theorem Cutting.Sound.read {s : Cutting} {ch : Char} (h : s.Sound o m i x)
    (hx : x.lexeme? = .ok none) (first : x.ahead.head? = some ch) :
    (s.read x ch).Sound o m i (x.advance 1) := by
  have code : CodeAt o x ch (m + s.depth) := ⟨h.depth, hx, first⟩
  have depth : Level o (x.advance 1) (m + (s.read x ch).depth) := by
    rw [depth_read, ← Int.add_assoc]
    exact code.next
  have forward := h.forward
  have after := h.after
  have earlier : ∀ p ∈ s.found, p.Sound o m i (x.advance 1).offset ∧ p.stop < s.start.offset :=
    fun p mem => ⟨(h.found p mem).1.mono (Nat.le_succ x.offset), (h.found p mem).2⟩
  rcases s.read_cases x ch with ⟨found, start⟩ | ⟨rfl, flat, _, cut⟩
  · -- the piece at hand goes on
    refine ⟨depth, ?_, ?_, ?_, ?_, ?_⟩
    · rw [start]
      exact h.level
    · rw [start]
      exact after
    · rw [start, advance_offset]
      omega
    · rw [found, start]
      exact earlier
    · rw [found]
      exact h.order
  · -- it ends at the comma, behind which the next one begins
    rw [cut, Int.add_zero] at depth
    rw [flat, Int.add_zero] at code
    rw [cut]
    refine ⟨by rw [Int.add_zero]; exact depth, depth, ?_, Nat.le_refl _, ?_, ?_⟩
    · rw [advance_offset]
      omega
    · refine List.forall_mem_cons.mpr ⟨⟨?_, Nat.lt_succ_self x.offset⟩, fun p mem => ?_⟩
      · exact ⟨h.level, after, forward, Nat.le_succ x.offset, x, ',', rfl, code, .inl rfl⟩
      · obtain ⟨sound, lt⟩ := earlier p mem
        exact ⟨sound, by rw [advance_offset]; omega⟩
    · exact List.pairwise_cons.mpr ⟨fun p mem => (h.found p mem).2, h.order⟩

theorem Cutting.Sound.lexeme {s : Cutting} {n : Nat} (h : s.Sound o m i x)
    (hx : x.lexeme? = .ok (some n)) : s.Sound o m i (x.advance n) := by
  have next := h.depth.reads (.lexeme hx (.here _))
  rw [chars_nil, level_nil, Int.add_zero] at next
  have forward := h.forward
  refine ⟨next, h.level, h.after, ?_, fun p mem => ?_, h.order⟩
  · rw [advance_offset]
    omega
  · exact ⟨(h.found p mem).1.mono (by rw [advance_offset]; omega), (h.found p mem).2⟩

/-- A cutting begins sound. -/
theorem Cutting.Sound.start (level : Level o c m) : Cutting.Sound o m c.offset c ⟨[], c, 0, 0⟩ :=
  ⟨by rw [Int.add_zero]; exact level, level, Nat.le_refl _, Nat.le_refl _, nofun, .nil⟩

theorem Cutting.Sound.over {code : List (Cursor × Char)} (h : Reads x code d) :
    ∀ {s : Cutting}, s.Sound o m i x → (s.over code).Sound o m i d := by
  induction h with
  | here x =>
      intro s sound
      exact sound
  | @lexeme x d code n hl rest ih =>
      intro s sound
      exact ih (sound.lexeme hl)
  | @char x d code ch hl first rest ih =>
      intro s sound
      exact ih (sound.read hl first)

/-- A piece is filled if the trivia at its start end inside it. -/
theorem Piece.isFilled_ok_iff {p : Piece} {b : Bool} :
    p.isFilled = .ok b ↔ ∃ x, Trivia false p.start x ∧ b = decide (x.offset < p.stop) := by
  unfold Piece.isFilled
  rw [bind_ok_iff]
  refine exists_congr fun x => and_congr skipTrivia_ok_iff ?_
  rw [pure_ok_iff]
  exact eq_comm

/-- Pieces with a character of code between neighbours. -/
def Piece.Apart (ps : List Piece) : Prop :=
  ps.Pairwise fun p q => p.stop < q.start.offset

theorem allPieces_sound {code : List (Cursor × Char)} {ch : Char} {ps : List Piece}
    (level : Level o c m) (h : Reads c code d) (ends : CodeAt o d ch m)
    (closes : isCloser ch = true) (hp : c.allPieces d.offset = .ok ps) :
    Piece.Apart ps ∧ ∀ p ∈ ps, p.Sound o m c.offset d.offset := by
  rw [allPieces_of_reads h] at hp
  cases hp
  have sound := Cutting.Sound.over h (.start level)
  constructor
  · rw [Piece.Apart, Cutting.pieces, List.pairwise_reverse, List.pairwise_cons]
    exact ⟨fun p mem => (sound.found p mem).2, sound.order⟩
  · intro p mem
    rw [Cutting.pieces, List.mem_reverse] at mem
    rcases List.mem_cons.mp mem with rfl | mem
    · exact ⟨sound.level, sound.after, sound.forward, Nat.le_refl _, d, ch, rfl, ends, .inr closes⟩
    · exact (sound.found p mem).1

/-- **Pieces follow one another on the level of their list.** -/
theorem pieces_sound {code : List (Cursor × Char)} {ch : Char} {ps : List Piece}
    (level : Level o c m) (h : Reads c code d) (ends : CodeAt o d ch m)
    (closes : isCloser ch = true) (hp : c.pieces d.offset = .ok ps) :
    Piece.Apart ps ∧ ∀ p ∈ ps, p.Sound o m c.offset d.offset := by
  rw [pieces, bind_ok_iff] at hp
  obtain ⟨all, hall, hp⟩ := hp
  obtain ⟨apart, sound⟩ := allPieces_sound level h ends closes hall
  obtain ⟨_, rfl⟩ := filterM_ok_iff.mp hp
  exact ⟨apart.filter _, fun p mem => sound p (List.mem_of_mem_filter mem)⟩

/-- The pieces between brackets lie between them, one level deeper. -/
theorem Cursor.Encloses.pieces_sound {code : List (Cursor × Char)} {ps : List Piece} (h : Encloses c code d)
    (level : Level o c m) (hp : (c.advance 1).pieces d.offset = .ok ps) :
    Piece.Apart ps ∧ ∀ p ∈ ps, p.Sound o (m + 1) (c.offset + 1) d.offset := by
  obtain ⟨opener, closer, first, pair, last⟩ := h.closes
  have closes := (isCloser_of_closer? pair).1
  have opens := (level.bracket first (.inl (by rw [pair]; rfl))).next
  rw [bracketWeight, pair] at opens
  exact EnumExtract.pieces_sound opens h.reads ((h.level_closer level).bracket last (.inr closes)) closes hp

end EnumExtract
