/-
  EnumExtract.Proofs.Coverage
  ────────────────────────────────
  A list is cut into pieces without loss.

  Every character of the list is in one piece, or it is a comma between two
  pieces, or it is white space or in a comment:

      a, /* b */, c<d, e>,       two pieces: what is between the commas in front
                                 is dropped, and so is what is behind the last one

  The brackets of the list need not nest, and the last comment or literal may
  reach past its end.  So the pieces are followed through the run of the
  cutting, with the invariant that what lies before the piece at hand is
  accounted for (`Cutting.Kept`).  A piece is dropped only if trivia from its
  start on go past its end.

  Main results:
    • `Cutting.Kept.of_walks`   the invariant, along the run of a cutting,
    • `Trivia.covers`           all that trivia pass are white space and comments,
    • `Text.pieces_cover`       pieces in order, and nothing lost between them.
-/
import EnumExtract.Proofs.Angles

namespace EnumExtract

open Cursor

variable {c d x : Cursor} {s : Cutting} {ps : List Piece} {stop i n : Nat}

/-! ## §1. What lies between pieces. -/

namespace Cursor

/-- A comma at offset `i` that separates pieces of the list that begins at `c`: a reading from `c`
comes to it, has closed as many brackets as it has opened, and has no angle bracket open. -/
def Separates (c : Cursor) (i : Nat) : Prop :=
  ∃ x code, Reads c code x ∧ x.offset = i ∧ x.ahead.head? = some ','
    ∧ level (chars code) = 0 ∧ (Cutting.over ⟨[], c, 0, 0⟩ code).angle = 0

/-- The character at offset `i` is a blank or belongs to a comment, to which a reading from `c`
comes. -/
def Idle (c : Cursor) (i : Nat) : Prop :=
  ∃ x code n, Reads c code x ∧ x.trivium? false = .ok (some n) ∧ x.offset ≤ i ∧ i < x.offset + n

/-- **All that trivia pass are blanks and comments.** -/
theorem Trivia.covers {o : Cursor} {m : Int} (h : Trivia false c d) (level : Level o c m)
    (le : c.offset ≤ i) (lt : i < d.offset) : o.Idle i := by
  induction h with
  | stop => omega
  | @pass c d n here rest ih =>
      rcases Nat.lt_or_ge i (c.offset + n) with inside | behind
      · obtain ⟨code, reads, _⟩ := level
        exact ⟨c, code, n, reads, here, le, inside⟩
      · exact ih (level.trivium here) behind lt

end Cursor

/-! ## §2. The run of a cutting. -/

/-- The cutting of the list from `c` to offset `stop` has come to `x` with the state `s`, and what lies
before the piece at hand is in a piece or a comma that separates pieces. -/
structure Cutting.Kept (c : Cursor) (stop : Nat) (x : Cursor) (s : Cutting) : Prop where
  sound : s.Sound c 0 c.offset x
  reached : ∃ code, Reads c code x ∧ s = Cutting.over ⟨[], c, 0, 0⟩ code
  within : s.start.offset ≤ stop
  commas : ∀ p ∈ s.found, c.Separates p.stop
  cover : ∀ i, c.offset ≤ i → i < s.start.offset →
    (∃ p ∈ s.found, p.start.offset ≤ i ∧ i < p.stop) ∨ c.Separates i

namespace Cutting.Kept

theorem start (le : c.offset ≤ stop) : Cutting.Kept c stop c ⟨[], c, 0, 0⟩ where
  sound := .start (.start c)
  reached := ⟨[], .here c, rfl⟩
  within := le
  commas := nofun
  cover _ after before := absurd before (Nat.not_lt.mpr after)

theorem lexeme (h : s.Kept c stop x) (hx : x.lexeme? = .ok (some n)) :
    s.Kept c stop (x.advance n) := by
  obtain ⟨code, reads, eq⟩ := h.reached
  have on := reads.trans (.lexeme hx (.here _))
  rw [List.append_nil] at on
  exact ⟨h.sound.lexeme hx, ⟨code, on, eq⟩, h.within, h.commas, h.cover⟩

theorem read {ch : Char} (h : s.Kept c stop x) (before : x.offset < stop)
    (hx : x.lexeme? = .ok none) (first : x.ahead.head? = some ch) :
    (s.read x ch).Kept c stop (x.advance 1) := by
  obtain ⟨code, reads, eq⟩ := h.reached
  have reached : ∃ code, Reads c code (x.advance 1) ∧ s.read x ch = Cutting.over ⟨[], c, 0, 0⟩ code :=
    ⟨code ++ [(x, ch)], reads.trans (.char hx first (.here _)), by rw [over_append, ← eq]; rfl⟩
  have sound := h.sound.read hx first
  rcases s.read_cases x ch with ⟨found, start⟩ | ⟨rfl, depth, angle, cut⟩
  · -- the piece at hand goes on
    refine ⟨sound, reached, ?_, ?_, ?_⟩
    · rw [start]
      exact h.within
    · rw [found]
      exact h.commas
    · rw [found, start]
      exact h.cover
  · -- the piece at hand ends here, and the next one begins behind the comma
    have balanced := depth_over code ⟨[], c, 0, 0⟩
    rw [← eq, depth] at balanced
    have comma : c.Separates x.offset :=
      ⟨x, code, reads, rfl, first, by simpa using balanced.symm, by rw [← eq]; exact angle⟩
    refine ⟨sound, reached, ?_, ?_, ?_⟩
    · rw [cut]
      exact before
    · rw [cut]
      exact List.forall_mem_cons.mpr ⟨comma, h.commas⟩
    · rw [cut]
      intro i after lt
      have lt : i < x.offset + 1 := lt
      rcases Nat.lt_or_ge i s.start.offset with earlier | here
      · refine (h.cover i after earlier).imp_left ?_
        rintro ⟨p, mem, inside⟩
        exact ⟨p, List.mem_cons_of_mem _ mem, inside⟩
      · rcases Nat.lt_or_eq_of_le (Nat.le_of_lt_succ lt) with inside | rfl
        · exact .inl ⟨⟨s.start, x.offset⟩, List.mem_cons_self, here, inside⟩
        · exact .inr comma

/-- **Along the run of a cutting nothing is lost.** -/
theorem of_walks (run : Walks (allPieces.step stop) (fun s _ => .ok (s.pieces stop)) s x ps)
    (h : s.Kept c stop x) :
    ∃ (s' : Cutting) (y : Cursor), ps = s'.pieces stop ∧ s'.Kept c stop y := by
  refine run.kept (I := fun s x => s.Kept c stop x)
    (P := fun ps => ∃ (s' : Cutting) (y : Cursor), ps = s'.pieces stop ∧ s'.Kept c stop y) h ?_ ?_ ?_
  · intro s x s' n more kept step
    rcases allPieces_step_ok more step with ⟨_, ⟨⟩⟩ | ⟨_, _, lexeme, ⟨⟩⟩ | ⟨_, before, plain, first, ⟨⟩⟩
    · exact kept.lexeme lexeme
    · exact kept.read before plain first
  · intro s x ps more kept step
    rcases allPieces_step_ok more step with ⟨_, ⟨⟩⟩ | ⟨_, _, _, ⟨⟩⟩ | ⟨_, _, _, _, ⟨⟩⟩
    exact ⟨s, x, rfl, kept⟩
  · rintro s x ps kept ⟨⟩
    exact ⟨s, x, rfl, kept⟩

end Cutting.Kept

/-! ## §3. The pieces of a list. -/

/-- A piece of the list from `c` to offset `stop`, which ends where the list does or at a comma. -/
structure Piece.CutFrom (c : Cursor) (stop : Nat) (p : Piece) : Prop where
  level : Level c p.start 0
  forward : p.start.offset ≤ p.stop
  before : p.stop ≤ stop
  ended : p.stop = stop ∨ c.Separates p.stop

/-- Pieces in order that leave out nothing but the commas between them, those of nothing but trivia
included. -/
theorem allPieces_cover (le : c.offset ≤ stop) (h : c.allPieces stop = .ok ps) :
    Piece.Apart ps ∧ (∀ p ∈ ps, p.CutFrom c stop)
      ∧ ∀ i, c.offset ≤ i → i < stop →
          (∃ p ∈ ps, p.start.offset ≤ i ∧ i < p.stop) ∨ c.Separates i := by
  rw [allPieces, walk_ok_iff (allPieces_step_steady stop)] at h
  obtain ⟨s, x, rfl, kept⟩ := Cutting.Kept.of_walks h (.start le)
  have sound := kept.sound
  have within := kept.within
  refine ⟨?_, ?_, ?_⟩
  · rw [Piece.Apart, Cutting.pieces, List.pairwise_reverse, List.pairwise_cons]
    exact ⟨fun p mem => (sound.found p mem).2, sound.order⟩
  · intro p mem
    rw [Cutting.pieces, List.mem_reverse] at mem
    rcases List.mem_cons.mp mem with rfl | mem
    · exact ⟨sound.level, within, Nat.le_refl _, .inl rfl⟩
    · obtain ⟨known, lt⟩ := sound.found p mem
      exact ⟨known.level, known.forward, by omega, .inr (kept.commas p mem)⟩
  · intro i after before
    rcases Nat.lt_or_ge i s.start.offset with earlier | here
    · refine (kept.cover i after earlier).imp_left ?_
      rintro ⟨p, mem, inside⟩
      exact ⟨p, List.mem_reverse.mpr (List.mem_cons_of_mem _ mem), inside⟩
    · exact .inl ⟨⟨s.start, stop⟩, List.mem_reverse.mpr List.mem_cons_self, here, before⟩

/-- **Pieces in order, and nothing lost between them.**  The pieces of a stretch of text are apart and
lie in it, each of them ends at its end or at a comma that separates pieces, and a character that is
in no piece is such a comma, white space or part of a comment. -/
theorem Text.pieces_cover {t : Text} {start : Nat} (le : start ≤ stop) (fits : stop ≤ t.length)
    (h : (t.cursor start).pieces stop = .ok ps) :
    ps.Pairwise (fun p q => p.stop < q.start.offset)
      ∧ (∀ p ∈ ps, p.start = t.cursor p.start.offset ∧ start ≤ p.start.offset
          ∧ p.start.offset < p.stop ∧ p.stop ≤ stop
          ∧ (p.stop = stop ∨ (t.cursor start).Separates p.stop))
      ∧ ∀ i, start ≤ i → i < stop → (∃ p ∈ ps, p.start.offset ≤ i ∧ i < p.stop)
          ∨ (t.cursor start).Separates i ∨ (t.cursor start).Idle i := by
  rw [pieces, bind_ok_iff] at h
  obtain ⟨all, hall, h⟩ := h
  obtain ⟨decided, rfl⟩ := filterM_ok_iff.mp h
  obtain ⟨apart, cut, cover⟩ := allPieces_cover (c := t.cursor start) le hall
  refine ⟨apart.filter _, ?_, ?_⟩
  · intro p mem
    obtain ⟨mem, filled⟩ := List.mem_filter.mp mem
    obtain ⟨x, trivia, inside⟩ := Piece.isFilled_ok_iff.mp (decided p mem)
    rw [filled] at inside
    have here := of_decide_eq_true inside.symm
    have onward := trivia.leadsTo.offset_le
    have known := cut p mem
    have start := known.level.leadsTo
    exact ⟨cursor_of_leadsTo ((leadsTo_cursor (Nat.le_trans le fits)).trans start), start.offset_le,
      by omega, known.before, known.ended⟩
  · intro i after before
    rcases cover i after before with ⟨p, mem, from', upTo⟩ | comma
    case inr => exact .inr (.inl comma)
    case inl =>
      cases kept : holds (·.isFilled) p with
      | true => exact .inl ⟨p, List.mem_filter.mpr ⟨mem, kept⟩, from', upTo⟩
      | false =>
          obtain ⟨x, trivia, inside⟩ := Piece.isFilled_ok_iff.mp (decided p mem)
          rw [kept] at inside
          have past := of_decide_eq_false inside.symm
          exact .inr (.inr (trivia.covers (cut p mem).level from' (by omega)))

/-- A piece of a comment and an empty one at the end are dropped. -/
theorem Text.pieces_cover_comment :
    ∃ ps, (Text.cursor "a, /* b */, c<d, e>," 0).pieces 20 = .ok ps
      ∧ ps.map (fun p => (p.start.offset, p.stop)) = [(0, 1), (11, 19)]
      ∧ ∀ i, i < 20 → (∃ p ∈ ps, p.start.offset ≤ i ∧ i < p.stop)
          ∨ (Text.cursor "a, /* b */, c<d, e>," 0).Separates i
          ∨ (Text.cursor "a, /* b */, c<d, e>," 0).Idle i := by
  have cut : ∃ ps, (Text.cursor "a, /* b */, c<d, e>," 0).pieces 20 = .ok ps
      ∧ ps.map (fun p => (p.start.offset, p.stop)) = [(0, 1), (11, 19)] :=
    exists_ok_of_decide (by decide +kernel)
  obtain ⟨ps, found, offsets⟩ := cut
  have cover := Text.pieces_cover (Nat.zero_le 20) (by decide) found
  exact ⟨ps, found, offsets, fun i lt => cover.2.2 i (Nat.zero_le i) lt⟩

end EnumExtract
