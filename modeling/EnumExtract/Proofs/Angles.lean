/-
  EnumExtract.Proofs.Angles
  ────────────────────────────────
  Angle brackets and the commas that cut a list.

  A cutting that is deeper in angle brackets than another stays deeper over
  the same characters, and it cuts at none of the commas at which the other
  does not.  A list falls into stretches between the commas that cut it, and
  a cutting begins anew behind each of them.

  Main results:
    • `Cutting.Below.over`   more open angle brackets never cut more,
    • `Cuts.of_reads`        the stretches of a list.
-/
import EnumExtract.Proofs.Agree
import EnumExtract.Proofs.Pieces

namespace EnumExtract

open Cursor

variable {c d x x' place : Cursor} {ch : Char} {code code' more : List (Cursor × Char)}
  {s t : Cutting} {ps : List Piece}

/-! ## §1. What one character does to a cutting. -/

/-- The depth of a cutting is the level that the code comes to. -/
theorem Cutting.depth_over (code : List (Cursor × Char)) : ∀ s : Cutting,
    (s.over code).depth = s.depth + level (chars code) := by
  induction code with
  | nil =>
      intro s
      simp
  | cons x code ih =>
      intro s
      rw [over_cons, ih, depth_read, chars_cons, level_cons, Int.add_assoc]

/-- What has been found stays found. -/
theorem Cutting.found_over (code : List (Cursor × Char)) : ∀ s : Cutting,
    s.found <:+ (s.over code).found := by
  induction code with
  | nil =>
      intro s
      exact List.suffix_refl _
  | cons x code ih =>
      intro s
      have here : s.found <:+ (s.read x.1 x.2).found := by
        rcases s.read_cases x.1 x.2 with ⟨found, _⟩ | ⟨_, _, _, eq⟩
        · simp only [found, List.suffix_refl]
        · rw [eq]
          exact List.suffix_cons _ _
      exact here.trans (ih _)

/-- Nothing is found in two stretches if nothing is found in one after the other. -/
theorem Cutting.uncut_cons {y : Cursor × Char} (h : (s.over (y :: code)).found = s.found) :
    (s.read y.1 y.2).found = s.found ∧ ((s.read y.1 y.2).over code).found = (s.read y.1 y.2).found := by
  have first := found_over [y] s
  rw [over_cons, over_nil] at first
  have rest := found_over code (s.read y.1 y.2)
  rw [over_cons] at h
  have shorter := first.length_le
  have longer := rest.length_le
  rw [h] at rest longer ⊢
  have same := first.eq_of_length (by omega)
  exact ⟨same.symm, same⟩

theorem Cutting.start_over (code : List (Cursor × Char)) : ∀ {s : Cutting},
    (s.over code).found = s.found → (s.over code).start = s.start := by
  induction code with
  | nil =>
      intro s _
      rfl
  | cons y code ih =>
      intro s h
      obtain ⟨here, rest⟩ := uncut_cons h
      rw [over_cons, ih rest]
      rcases s.read_cases y.1 y.2 with ⟨_, start⟩ | ⟨_, _, _, eq⟩
      · exact start
      · rw [eq] at here
        have longer := congrArg List.length here
        rw [List.length_cons] at longer
        omega

/-- Blanks leave a cutting as it is. -/
theorem Cutting.over_of_blank {code : List (Cursor × Char)}
    (blank : ∀ ch ∈ chars code, isBlank ch = true) : ∀ s : Cutting, s.over code = s := by
  induction code with
  | nil =>
      intro s
      rfl
  | cons y code ih =>
      intro s
      rw [chars_cons] at blank
      have here := blank _ List.mem_cons_self
      have weight := bracketWeight_of_blank here
      have plain : s.read y.1 y.2 = s := by
        have other (ch : Char) (notBlank : isBlank ch = false) : y.2 ≠ ch := by
          intro same
          rw [same, notBlank] at here
          cases here
        have noOpener : (closer? y.2).isSome = false := by
          rw [Bool.eq_false_iff]
          intro opener
          rw [bracketWeight, if_pos opener] at weight
          cases weight
        have noCloser : isCloser y.2 = false := by
          rw [Bool.eq_false_iff]
          intro closer
          rw [isBracket_not_blank (.inr closer)] at here
          cases here
        simp [Cutting.read, noOpener, noCloser, other '<' rfl, other '>' rfl, other ',' rfl]
      rw [over_cons, plain]
      exact ih (fun ch mem => blank ch (List.mem_cons_of_mem _ mem)) s

/-! ## §2. More angle brackets, fewer pieces. -/

/-- The same characters, each of them behind the same character: all of the code that a cutting
looks at. -/
def SameChars (code code' : List (Cursor × Char)) : Prop :=
  List.Forall₂ (fun y y' => y'.2 = y.2 ∧ y'.1.before = y.1.before) code code'

theorem Cursor.SameCode.sameChars {e e' : Nat} (h : SameCode e e' code code') :
    SameChars code code' :=
  h.imp fun _ _ same => ⟨same.1, same.2.before⟩

/-- `t` is as deep in brackets as `s`, and at least as deep in angle brackets. -/
structure Cutting.Below (s t : Cutting) : Prop where
  depth : t.depth = s.depth
  angle : s.angle ≤ t.angle

theorem Cutting.Below.read (h : s.Below t) (before : x'.before = x.before)
    (uncut : (s.read x ch).found = s.found) :
    (s.read x ch).Below (t.read x' ch) ∧ (t.read x' ch).found = t.found := by
  have angle := h.angle
  refine ⟨⟨by rw [depth_read, depth_read, h.depth], ?_⟩, ?_⟩
  · unfold Cutting.read
    rw [h.depth, before]
    split
    · exact angle
    · split
      · exact angle
      · split
        · exact angle
        · split
          · exact Nat.add_le_add_right angle 1
          · split
            · exact Nat.sub_le_sub_right angle 1
            · split <;> split <;> exact angle
  · rcases t.read_cases x' ch with ⟨found, _⟩ | ⟨rfl, depth, none, _⟩
    · exact found
    · exfalso
      -- then the other cutting would have cut here
      rcases s.read_cases x ',' with ⟨found, start⟩ | ⟨_, _, _, eq⟩
      · have depth' := h.depth
        have here : (s.read x ',').found = ⟨s.start, x.offset⟩ :: s.found := by
          simp [Cutting.read, closer?, isCloser, show s.depth = 0 by omega, show s.angle = 0 by omega]
        rw [uncut] at here
        have longer := congrArg List.length here
        rw [List.length_cons] at longer
        omega
      · rw [eq] at uncut
        have longer := congrArg List.length uncut
        rw [List.length_cons] at longer
        omega

/-- **More open angle brackets never cut more.** -/
theorem Cutting.Below.over (same : SameChars code code') : ∀ {s t : Cutting}, s.Below t →
    (s.over code).found = s.found →
      (s.over code).Below (t.over code') ∧ (t.over code').found = t.found := by
  induction same with
  | nil =>
      intro s t h _
      exact ⟨h, rfl⟩
  | @cons y y' code code' here _ ih =>
      intro s t h uncut
      obtain ⟨first, rest⟩ := uncut_cons uncut
      obtain ⟨below, found⟩ := h.read here.2 first
      rw [over_cons, over_cons, here.1]
      obtain ⟨below', found'⟩ := ih below rest
      exact ⟨below', found'.trans found⟩

theorem SameChars.symm (h : SameChars code code') : SameChars code' code :=
  (h.imp fun _ _ same => ⟨same.1.symm, same.2.symm⟩).flip

/-- Code that does not cut on its own does not cut in a deeper state, and if no angle bracket is
open before it, as many are behind it as it opens on its own. -/
theorem Cutting.over_uncut (same : SameChars code code')
    (uncut : (Cutting.over ⟨[], c, 0, 0⟩ code).found = []) (even : level (chars code) = 0)
    (depth : s.depth = 0) :
    ∃ b, s.over code' = ⟨s.found, s.start, 0, b⟩
      ∧ (s.angle = 0 → b = (Cutting.over ⟨[], c, 0, 0⟩ code).angle) := by
  have below : Below ⟨[], c, 0, 0⟩ s := ⟨depth, Nat.zero_le _⟩
  obtain ⟨⟨depth', angle⟩, found⟩ := below.over same uncut
  have start := start_over code' found
  have level := depth_over code ⟨[], c, 0, 0⟩
  rw [even] at level
  refine ⟨(s.over code').angle, ?_, fun none => ?_⟩
  · have depth'' := depth'.trans level
    generalize s.over code' = t at found start depth''
    obtain ⟨found', start', depth', angle'⟩ := t
    simp only at found start depth''
    rw [found, start, depth'']
    rfl
  · have above : s.Below ⟨[], c, 0, 0⟩ := ⟨depth.symm, Nat.le_of_eq none⟩
    exact Nat.le_antisymm (above.over same.symm found).1.angle angle

/-! ## §3. The stretches of a list. -/

/-- The code between `c` and `d` is cut into the pieces `ps`: a cutting that begins at `c`, or
behind a comma that cuts, finds nothing up to the next such comma, and it is then outside every
bracket and every angle bracket. -/
inductive Cuts : Cursor → List (Cursor × Char) → List Piece → Cursor → Prop where
  | last {c d : Cursor} {code : List (Cursor × Char)} (r : Reads c code d)
      (uncut : (Cutting.over ⟨[], c, 0, 0⟩ code).found = []) (even : level (chars code) = 0) :
      Cuts c code [⟨c, d.offset⟩] d
  | cut {c x d : Cursor} {code more : List (Cursor × Char)} {ps : List Piece} (r : Reads c code x)
      (uncut : Cutting.over ⟨[], c, 0, 0⟩ code = ⟨[], c, 0, 0⟩) (plain : x.lexeme? = .ok none)
      (first : x.ahead.head? = some ',') (rest : Cuts (x.advance 1) more ps d) :
      Cuts c (code ++ (x, ',') :: more) (⟨c, x.offset⟩ :: ps) d

/-- What has been found before takes no part in a cutting. -/
theorem Cutting.over_frame (old : List Piece) (code : List (Cursor × Char)) : ∀ s : Cutting,
    Cutting.over ⟨s.found ++ old, s.start, s.depth, s.angle⟩ code
      = ⟨(s.over code).found ++ old, (s.over code).start, (s.over code).depth,
        (s.over code).angle⟩ := by
  induction code with
  | nil =>
      intro s
      rfl
  | cons y code ih =>
      intro s
      have here : Cutting.read ⟨s.found ++ old, s.start, s.depth, s.angle⟩ y.1 y.2
          = ⟨(s.read y.1 y.2).found ++ old, (s.read y.1 y.2).start, (s.read y.1 y.2).depth,
            (s.read y.1 y.2).angle⟩ := by
        unfold Cutting.read
        split
        · rfl
        · split
          · rfl
          · split
            · rfl
            · split
              · rfl
              · split
                · rfl
                · split <;> rfl
      rw [over_cons, over_cons, here, ih]

/-- Behind a comma that cuts, a cutting begins anew. -/
theorem Cutting.pieces_of_cut (p : Piece) (c : Cursor) (code : List (Cursor × Char)) (stop : Nat) :
    (Cutting.over ⟨[p], c, 0, 0⟩ code).pieces stop
      = p :: (Cutting.over ⟨[], c, 0, 0⟩ code).pieces stop := by
  have frame := over_frame [p] code ⟨[], c, 0, 0⟩
  rw [List.nil_append] at frame
  rw [frame]
  simp [Cutting.pieces]

theorem Cutting.read_comma (found : List Piece) (start place : Cursor) :
    Cutting.read ⟨found, start, 0, 0⟩ place ','
      = ⟨⟨start, place.offset⟩ :: found, place.advance 1, 0, 0⟩ := by
  simp [Cutting.read, closer?, isCloser]

/-- A comma cuts where no bracket is open. -/
theorem Cutting.pieces_comma (c place : Cursor) (code : List (Cursor × Char)) (stop : Nat) :
    (Cutting.over ⟨[], c, 0, 0⟩ ((place, ',') :: code)).pieces stop
      = ⟨c, place.offset⟩ :: (Cutting.over ⟨[], place.advance 1, 0, 0⟩ code).pieces stop := by
  rw [Cutting.over_cons, Cutting.read_comma, Cutting.pieces_of_cut]

theorem Cuts.of_reads_from (r : Reads x code d) : ∀ {c : Cursor} {before : List (Cursor × Char)},
    Reads c before x → (Cutting.over ⟨[], c, 0, 0⟩ before).found = [] →
      level (chars (before ++ code)) = 0 →
      Cuts c (before ++ code) ((Cutting.over ⟨[], c, 0, 0⟩ (before ++ code)).pieces d.offset) d := by
  induction r with
  | here x =>
      intro c before r uncut even
      rw [List.append_nil] at even ⊢
      have start := Cutting.start_over before uncut
      rw [Cutting.pieces, uncut, start]
      exact .last r uncut even
  | @lexeme x d code n h rest ih =>
      intro c before r uncut even
      refine ih ?_ uncut even
      have on := r.trans (.lexeme h (.here _))
      rwa [List.append_nil] at on
  | @char x d code ch h first rest ih =>
      intro c before r uncut even
      have start := Cutting.start_over before uncut
      rcases (Cutting.over ⟨[], c, 0, 0⟩ before).read_cases x ch with
        ⟨found, _⟩ | ⟨rfl, depth, angle, eq⟩
      · have on := ih (c := c) (r.trans (.char h first (.here _)))
          (by rw [Cutting.over_append, Cutting.over_cons, Cutting.over_nil, found, uncut])
          (by rw [List.append_assoc]; exact even)
        rw [List.append_assoc] at on
        exact on
      · rw [uncut, start] at eq
        have fresh : Cutting.over ⟨[], c, 0, 0⟩ before = ⟨[], c, 0, 0⟩ := by
          revert uncut start depth angle
          generalize Cutting.over ⟨[], c, 0, 0⟩ before = s
          intro uncut depth angle start
          obtain ⟨found, start', depth', angle'⟩ := s
          simp only at uncut depth angle start
          rw [uncut, depth, angle, start]
        have behind := @ih (x.advance 1) [] (.here _) rfl (by
          have weight := Cutting.depth_over before ⟨[], c, 0, 0⟩
          rw [depth] at weight
          rw [chars_append, level_append, chars_cons, level_cons,
            show bracketWeight ',' = 0 from rfl] at even
          rw [List.nil_append]
          simp only at weight
          omega)
        rw [List.nil_append] at behind
        rw [Cutting.over_append, Cutting.over_cons]
        simp only
        rw [eq, Cutting.pieces_of_cut]
        exact .cut r fresh h first behind

/-- **The pieces of a list** are its stretches. -/
theorem Cuts.of_reads (r : Reads c code d) (even : level (chars code) = 0)
    (h : c.allPieces d.offset = .ok ps) : Cuts c code ps d := by
  rw [allPieces_of_reads r] at h
  cases h
  exact of_reads_from r (.here c) rfl even

end EnumExtract
