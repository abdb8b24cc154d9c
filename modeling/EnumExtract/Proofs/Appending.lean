/-
  EnumExtract.Proofs.Appending
  ────────────────────────────────
  Discriminants appended to the variants of a body.

  A discriminant is an equals sign and an expression behind it.  Its brackets
  are balanced and it holds no comma that cuts, but it may leave angle
  brackets open: the two of `1 << 3`, say.  Where one is appended to a piece,
  the text up to it is read as before, and the expression is read as it is on
  its own.

  Main results:
    • `Fence.of_probe`     a brace and a tick stand for all that may follow,
    • `exists_stretch`     what a piece becomes when a discriminant is appended,
    • `Cuts.grows`         what a body becomes.
-/
import EnumExtract.Proofs.Angles
import EnumExtract.Proofs.Likeness

namespace EnumExtract

open Cursor

/-! ## §1. Ticks before a fence. -/

theorem not_isHexDigit_of_isFence {f : Char} (h : isFence f = true) : isHexDigit f = false := by
  unfold isFence at h
  simp only [Bool.or_eq_true, beq_iff_eq] at h
  rcases h with (((rfl | rfl) | rfl) | rfl) | blank
  · decide
  · decide
  · decide
  · decide
  · have none : ∀ n ∈ blankCodes, isHexDigit (Char.ofNat n) = false := by decide +kernel
    rw [← Char.ofNat_toNat f]
    exact none _ (mem_blankCodes blank)

/-- A character literal ends in a character and a tick.  If that character is a fence, a closing
brace may take its place. -/
theorem CharacterTail.split {u : Text} (h : CharacterTail u) :
    ∃ v g, u = v ++ [g, '\''] ∧ (∀ ch ∈ v, isFence ch = false)
      ∧ (isFence g = true →
          CharacterTail (v ++ ['\x7d', '\'']) ∧ (v = [] ∨ v = ['\\'] ∨ g = '\x7d')) := by
  have notFence {ch : Char} (hex : isHexDigit ch = true) : isFence ch = false := by
    rw [Bool.eq_false_iff]
    intro fence
    rw [not_isHexDigit_of_isFence fence] at hex
    cases hex
  cases h with
  | @hex a b ha hb =>
      refine ⟨['\\', 'x', a], b, rfl, ?_, fun fence => ?_⟩
      · intro ch mem
        rw [List.mem_cons, List.mem_cons, List.mem_singleton] at mem
        rcases mem with rfl | rfl | rfl
        · rfl
        · rfl
        · exact notFence ha
      · rw [notFence hb] at fence
        cases fence
  | @unicode digits some few hex =>
      refine ⟨'\\' :: 'u' :: '\x7b' :: digits, '\x7d', by simp, ?_, fun _ => ⟨?_, .inr (.inr rfl)⟩⟩
      · intro ch mem
        rw [List.mem_cons, List.mem_cons, List.mem_cons] at mem
        rcases mem with rfl | rfl | rfl | mem
        · rfl
        · rfl
        · rfl
        · exact notFence (hex ch mem)
      · exact .unicode some few hex
  | @escape c h =>
      refine ⟨['\\'], c, rfl, ?_, fun _ => ⟨.escape (by decide), .inr (.inl rfl)⟩⟩
      intro ch mem
      rw [List.mem_singleton] at mem
      rw [mem]
      rfl
  | @plain c escape tick feed =>
      exact ⟨[], c, rfl, nofun, fun _ => ⟨.plain (by decide) (by decide) (by decide), .inl rfl⟩⟩

/-- A character literal that reaches past a fence ends in the fence and a tick. -/
theorem exists_of_across {v r : Text} {f : Char} {n : Nat} (fence : isFence f = true)
    (h : characterLength? (v ++ f :: r) = some n) (past : v.length < n) :
    ∃ r', r = '\'' :: r' ∧ CharacterTail (v ++ [f, '\''])
      ∧ CharacterTail (v ++ ['\x7d', '\'']) ∧ (v = [] ∨ v = ['\\'] ∨ f = '\x7d') := by
  obtain ⟨u, w, eq, tail, rfl⟩ := exists_of_characterLength? h
  obtain ⟨v', g, rfl, plain, brace⟩ := tail.split
  rw [List.append_assoc, List.cons_append, List.cons_append, List.nil_append] at eq
  obtain ⟨x, hx⟩ | ⟨x, hx⟩ := List.append_eq_append_iff.mp eq
  · obtain ⟨rfl, hx⟩ := hx
    cases x with
    | nil =>
        rw [List.nil_append] at hx
        obtain ⟨rfl, rfl⟩ := List.cons.inj hx
        rw [List.append_nil] at tail brace
        exact ⟨w, rfl, tail, (brace fence).1, (brace fence).2⟩
    | cons y x =>
        -- the fence would be among the characters before the last two
        obtain ⟨rfl, _⟩ := List.cons.inj hx
        rw [plain f (List.mem_append_right _ List.mem_cons_self)] at fence
        cases fence
  · obtain ⟨rfl, hx⟩ := hx
    cases x with
    | nil =>
        rw [List.nil_append] at hx
        obtain ⟨rfl, rfl⟩ := List.cons.inj hx
        rw [List.append_nil]
        exact ⟨w, rfl, tail, (brace fence).1, (brace fence).2⟩
    | cons y x =>
        rw [List.length_append, List.length_append, List.length_cons, List.length_cons,
          List.length_cons, List.length_nil] at past
        match x with
        | [] =>
            obtain ⟨_, eq'⟩ := List.cons.inj hx
            obtain ⟨rfl, _⟩ := List.cons.inj eq'
            exact absurd rfl (isFence_ne fence).2.2.2.2.2.1
        | z :: x =>
            rw [List.length_cons] at past
            omega

/-- A character literal that ends before the fence does not depend on what follows. -/
theorem characterLength?_before {v s s' : Text} {n : Nat} (h : characterLength? (v ++ s') = some n)
    (le : n ≤ v.length) : characterLength? (v ++ s) = some n := by
  obtain ⟨u, w, eq, tail, rfl⟩ := exists_of_characterLength? h
  have inside := congrArg (List.take u.length) eq
  rw [List.take_append_of_le_length le, List.take_left] at inside
  rw [← List.take_append_drop u.length v, inside, List.append_assoc]
  exact characterLength?_append tail _

/-- **A brace and a tick stand for all that may follow**: a tick that they do not complete is
completed by no fence. -/
theorem Fence.of_probe {u r : Text} {f : Char} (fence : isFence f = true) :
    Fence u "\x7d'" (f :: r) := by
  refine ⟨nofun, by rintro _ _ ⟨⟩; exact fence, fun w v _ none => ?_⟩
  cases h : characterLength? (v ++ f :: r) with
  | none => rfl
  | some n =>
      exfalso
      rcases Nat.lt_or_ge v.length n with past | before
      · obtain ⟨_, _, _, brace, _⟩ := exists_of_across fence h past
        have here := characterLength?_append brace []
        rw [List.append_nil] at here
        rw [show ("\x7d'" : Text) = ['\x7d', '\''] from rfl, here] at none
        cases none
      · rw [characterLength?_before h before] at none
        cases none

/-- What follows the same fence may be something else, if it begins with the same character. -/
theorem Fence.of_same {u r r' : Text} {f : Char} (fence : isFence f = true)
    (same : r'.head? = r.head?) : Fence u (f :: r) (f :: r') := by
  refine ⟨nofun, by rintro _ _ ⟨⟩; exact fence, fun w v _ none => ?_⟩
  cases h : characterLength? (v ++ f :: r') with
  | none => rfl
  | some n =>
      exfalso
      rcases Nat.lt_or_ge v.length n with past | before
      · obtain ⟨tail, rfl, here, _⟩ := exists_of_across fence h past
        obtain ⟨rest, rfl⟩ := List.head?_eq_some_iff.mp same.symm
        have there := characterLength?_append here rest
        rw [List.append_assoc] at there
        rw [show f :: '\'' :: rest = [f, '\''] ++ rest from rfl, there] at none
        cases none
      · rw [characterLength?_before h before] at none
        cases none

/-- The text ends in a tick, or in a tick and a backslash. -/
def Text.EndsInTick (t : Text) : Prop :=
  ['\''] <:+ t ∨ ['\'', '\\'] <:+ t

/-- A blank or an equals sign may follow, if no tick behind it meets one before it. -/
theorem Fence.of_gap {u s r : Text} {f : Char} (more : s ≠ []) (fence : isFence f = true)
    (noBrace : f ≠ '\x7d') (apart : r.head? = some '\'' → ¬ u.EndsInTick) : Fence u s (f :: r) := by
  refine ⟨fun none => absurd none more, by rintro _ _ ⟨⟩; exact fence, fun w v eq none => ?_⟩
  cases h : characterLength? (v ++ f :: r) with
  | none => rfl
  | some n =>
      exfalso
      rcases Nat.lt_or_ge v.length n with past | before
      · obtain ⟨tail, rfl, _, _, which⟩ := exists_of_across fence h past
        refine apart rfl ?_
        rcases which with rfl | rfl | brace
        · exact .inl ⟨w, eq.symm⟩
        · exact .inr ⟨w, eq.symm⟩
        · exact absurd brace noBrace
      · rw [characterLength?_before h before] at none
        cases none

/-! ## §2. Discriminants. -/

/-- The place of an expression behind an equals sign, with a closing brace and a tick behind. -/
def probe (expr : Text) : Cursor :=
  ⟨some '=', 1, expr ++ "\x7d'"⟩

/-- An explicit discriminant: blanks, an equals sign, and an expression that is read to its end,
in which the brackets `()`, `[]` and braces are balanced and no comma cuts. -/
structure Discriminant where
  gap : Text
  expr : Text
  /-- The characters of the expression outside comments and literals. -/
  code : List (Cursor × Char)
  blank : ∀ ch ∈ gap, isBlank ch = true
  reads : Reads (probe expr) code ((probe expr).advance expr.length)
  balanced : nest [] (chars code) = some []
  uncut : (Cutting.over ⟨[], probe expr, 0, 0⟩ code).found = []

namespace Discriminant

/-- The discriminant as written. -/
def text (D : Discriminant) : Text :=
  D.gap ++ '=' :: D.expr

/-- The number of angle brackets that the expression leaves open. -/
def angles (D : Discriminant) : Nat :=
  (Cutting.over ⟨[], probe D.expr, 0, 0⟩ D.code).angle

end Discriminant

/-- A discriminant with the place behind a variant where it is appended.  The trivia that the
variant has there may stand at the end of the expression. -/
structure Addition extends Discriminant where
  place : Cursor

/-- The discriminant may be appended to the piece: the piece holds a variant, only trivia are in
it behind the place, and text and discriminant do not make a character literal where they meet. -/
structure Addition.Fits (A : Addition) (p : Piece) : Prop where
  filled : p.isFilled = .ok true
  reached : ∃ code, Reads p.start code A.place
  trails : ∃ y, Trivia false A.place y ∧ y.offset = p.stop
  apart : A.gap = [] → A.expr.head? = some '\'' → ¬ (p.start.upTo A.place.offset).EndsInTick

/-- The text of a piece with what is appended to it. -/
def Piece.extended (p : Piece) : Option Addition → Text
  | none => p.text
  | some A => p.start.upTo A.place.offset ++ A.text

/-- The text of a list of pieces with what is appended to them. -/
def extended (ps : List Piece) (adds : List (Option Addition)) : Text :=
  Text.join "," (List.zipWith Piece.extended ps adds)

theorem extended_singleton (p : Piece) (add : Option Addition) :
    extended [p] [add] = p.extended add := by
  unfold extended Text.join
  exact List.intercalate_singleton

theorem extended_cons {p : Piece} {add : Option Addition} {ps : List Piece}
    {adds : List (Option Addition)} (some : ps ≠ []) (same : ps.length = adds.length) :
    extended (p :: ps) (add :: adds) = p.extended add ++ ',' :: extended ps adds := by
  unfold extended Text.join
  rw [List.zipWith_cons_cons, List.intercalate_cons_of_ne_nil, List.append_assoc]
  · rfl
  · intro none
    have short := congrArg List.length none
    rw [List.length_zipWith, ← same, Nat.min_self, List.length_nil] at short
    exact some (List.length_eq_zero_iff.mp short)

/-! ## §3. What a piece becomes. -/

variable {o c c' d x : Cursor} {p : Piece} {add : Option Addition} {m : Int} {i j : Nat}
  {code new : List (Cursor × Char)}

theorem nest_append_eq (awaited : List Char) (code more : List Char) :
    nest awaited (code ++ more) = (nest awaited code).bind (nest · more) := by
  induction code generalizing awaited with
  | nil => rfl
  | cons ch code ih =>
      rw [List.cons_append, nest_cons, nest_cons awaited ch code, Option.bind_assoc]
      congr 1
      funext between
      exact ih between

theorem nest_balanced {code : List Char} (h : nest [] code = some []) (awaited : List Char) :
    nest awaited code = some awaited := by
  have frame := nest_frame awaited h
  rwa [List.nil_append] at frame

/-- **A discriminant is read behind an equals sign as it is on its own.** -/
theorem Discriminant.read (D : Discriminant) {f : Char} {r : Text} (fence : isFence f = true)
    (eq : c.ahead = D.text ++ f :: r) :
    ∃ new, Reads c new (c.advance D.text.length) ∧ nest [] (chars new) = some []
      ∧ ∀ s : Cutting, s.depth = 0 →
          ∃ b, s.over new = ⟨s.found, s.start, 0, b⟩ ∧ (s.angle = 0 → b = D.angles) := by
  have eq' : c.ahead = D.gap ++ ('=' :: D.expr ++ f :: r) := by
    rw [eq, Discriminant.text, List.append_assoc]
  obtain ⟨gap, readsGap, gapChars⟩ := reads_blanks eq' D.blank
  have equals : (c.advance D.gap.length).ahead = '=' :: (D.expr ++ f :: r) := by
    rw [advance_ahead, eq', List.drop_left]
    rfl
  have first : (c.advance D.gap.length).ahead.head? = some '=' := by
    rw [equals]
    rfl
  have plain : (c.advance D.gap.length).lexeme? = .ok none := by
    refine lexeme?_eq_none fun ch first' => ?_
    rw [first] at first'
    cases first'
    rfl
  have behind : ((c.advance D.gap.length).advance 1).before = some '=' := by
    rw [advance, if_neg (by decide), equals]
    rfl
  have agree : Agree (1 + D.expr.length) ((c.advance D.gap.length).offset + 1 + D.expr.length)
      (probe D.expr) ((c.advance D.gap.length).advance 1) := by
    refine ⟨behind, D.expr, "\x7d'", f :: r, rfl, ?_, rfl, rfl, .of_probe fence⟩
    rw [advance_ahead, equals]
    rfl
  obtain ⟨code', d', readsExpr, agreeEnd, same⟩ := agree.reads D.reads (Nat.le_refl _)
  have place := agreeEnd.place
  have stop : d' = c.advance D.text.length := by
    rw [readsExpr.leadsTo.eq_advance, advance_advance, advance_advance]
    congr 1
    have long : D.text.length = D.gap.length + (D.expr.length + 1) := by
      rw [Discriminant.text, List.length_append, List.length_cons]
    have start : (probe D.expr).offset = 1 := rfl
    simp only [advance_offset, start] at place ⊢
    omega
  rw [stop] at readsExpr
  refine ⟨_, readsGap.trans (.char plain first readsExpr), ?_, fun s depth => ?_⟩
  · rw [chars_append, chars_cons, same.chars_eq, gapChars, nest_append_eq,
      nest_of_plain [] fun ch mem => bracketWeight_of_blank (D.blank ch mem), Option.bind_some,
      nest_cons]
    exact D.balanced
  · have even := length_of_nest D.balanced
    rw [List.length_nil] at even
    have unmoved : s.read (c.advance D.gap.length) '=' = s := by
      simp [Cutting.read, closer?, isCloser]
    have still : s.over gap = s := Cutting.over_of_blank (by rw [gapChars]; exact D.blank) s
    rw [Cutting.over_append, still, Cutting.over_cons, unmoved]
    exact Cutting.over_uncut same.sameChars D.uncut (by omega) depth

/-- The stretch from `c'` to `y'` that the piece `p` becomes when `add` is appended to it.  The
code of the piece is `code`, and that of the stretch is `new`. -/
structure Stretch (o : Cursor) (m : Int) (p : Piece) (add : Option Addition)
    (code : List (Cursor × Char)) (c' : Cursor) (new : List (Cursor × Char)) (y' : Cursor) : Prop where
  reads : Reads c' new y'
  nests : ∀ awaited, nest awaited (chars new) = nest awaited (chars code)
  /-- No comma of the stretch cuts, and what angle brackets are open behind it is known if none
  is before. -/
  uncut : ∀ s : Cutting, s.depth = 0 → ∃ b, s.over new = ⟨s.found, s.start, 0, b⟩
    ∧ (p.isFilled = .ok false → b = s.angle)
    ∧ (s.angle = 0 → (Cutting.over ⟨[], p.start, 0, 0⟩ code).angle = 0 → b = add.elim 0 (·.toDiscriminant.angles))
  filled : p.isFilled = .ok true → ∀ stop, y'.offset ≤ stop → (Piece.mk c' stop).isFilled = .ok true
  empty : p.isFilled = .ok false → (Piece.mk c' y'.offset).isFilled = .ok false
  grown : ∀ stop, y'.offset ≤ stop → (add = none → stop = y'.offset) →
    ∃ e e', p.Grown o m e e' ⟨c', stop⟩

/-- The place where a discriminant is appended is on the level of the piece. -/
theorem Addition.Fits.trails_at {A : Addition} (h : A.Fits p) (sound : p.Sound o m i j) :
    p.Trails o m A.place.offset := by
  obtain ⟨code, reads⟩ := h.reached
  obtain ⟨y, trivia, stop⟩ := h.trails
  obtain ⟨x, ch, atStop, hx, _⟩ := sound.ended
  have level := sound.level.reads reads
  have atEnd := (trivia.spec level.near).1
  have same : y = x := atEnd.eq_of_offset hx.level (by omega)
  rw [same] at atEnd
  rw [atEnd.unique hx.level] at level
  exact ⟨A.place, y, level, rfl, trivia, stop⟩

section Stretches

variable {f : Char} {r r' : Text}

/-- A character at which a piece ends is no trivia. -/
theorem trivia_of_stop (stop : f = ',' ∨ f = '\x7d') (ahead : c.ahead = f :: r) :
    Trivia false c c := by
  refine .stop (trivium?_of_first (by rw [ahead]; rfl) ?_ ?_)
  · rcases stop with rfl | rfl <;> rfl
  · rcases stop with rfl | rfl <;> decide

theorem isFence_of_stop (stop : f = ',' ∨ f = '\x7d') : isFence f = true := by
  rcases stop with rfl | rfl <;> rfl

/-- Behind a discriminant in place of trivia, a tick of the piece stays as it is. -/
theorem Addition.Fits.fence {A : Addition} (h : A.Fits p) (stop : f = ',' ∨ f = '\x7d')
    (more : A.place.ahead ≠ []) :
    Fence (p.start.upTo A.place.offset) A.place.ahead (A.text ++ f :: r') := by
  have apart := h.apart
  rw [Discriminant.text, List.append_assoc]
  cases gap : A.gap with
  | nil =>
      refine .of_gap more rfl (by decide) fun tick => ?_
      refine apart gap ?_
      cases expr : A.expr with
      | nil =>
          rw [expr] at tick
          rcases stop with rfl | rfl <;> cases Option.some.inj tick
      | cons y w =>
          rw [expr] at tick
          exact tick
  | cons g w =>
      have blank := A.blank
      rw [gap] at blank
      have here := blank g List.mem_cons_self
      have noBrace : g ≠ '\x7d' := by
        rintro rfl
        cases here
      refine .of_gap more (by rw [isFence, here, Bool.or_true]) noBrace fun tick => ?_
      -- a blank or the equals sign is next
      exfalso
      cases w with
      | nil => cases Option.some.inj tick
      | cons y w =>
          obtain rfl : y = '\'' := Option.some.inj tick
          cases blank '\'' (List.mem_cons_of_mem _ List.mem_cons_self)

/-- The code of trivia is blank, so that a cutting stays as it is over trivia. -/
theorem blank_of_trivia {tail : List (Cursor × Char)} (level : Level o c m) (trivia : Trivia false c x)
    (reads : Reads c tail d) (le : d.offset ≤ x.offset) : ∀ ch ∈ chars tail, isBlank ch = true := by
  intro ch mem
  obtain ⟨y, inCode, rfl⟩ := List.mem_map.mp mem
  obtain ⟨k, hy⟩ := level.codeAt_of_mem reads inCode
  have within := reads.offset_lt_of_mem inCode
  exact (trivia.spec level.near).2 hy within.1 (by omega)

/-- **What a piece becomes** when nothing is appended to it. -/
theorem exists_stretch_none (reads : Reads c code x)
    (uncut : (Cutting.over ⟨[], c, 0, 0⟩ code).found = []) (even : level (chars code) = 0)
    (sound : (Piece.mk c x.offset).Sound o m i j) (known : ∃ b, (Piece.mk c x.offset).isFilled = .ok b)
    (before : c'.before = c.before) (stop : f = ',' ∨ f = '\x7d') (ahead : x.ahead = f :: r)
    (same : r'.head? = r.head?) (ahead' : c'.ahead = (Piece.mk c x.offset).extended none ++ f :: r') :
    ∃ new y', Stretch o m ⟨c, x.offset⟩ none code c' new y' ∧ y'.ahead = f :: r' := by
  have fence := isFence_of_stop stop
  have long := reads.leadsTo.length_upTo
  have forward := reads.offset_le
  have agree : Agree x.offset (c'.offset + (x.offset - c.offset)) c c' := by
    refine ⟨before, c.upTo x.offset, f :: r, f :: r', ?_, ahead', by omega, by omega,
      .of_same fence same⟩
    rw [← ahead]
    exact reads.leadsTo.ahead_eq
  obtain ⟨code', x', reads', agreeEnd, sameCode⟩ := agree.reads reads (Nat.le_refl _)
  have place := agreeEnd.place
  have behind : x'.ahead = f :: r' := by
    rw [reads'.leadsTo.eq_advance, advance_ahead, ahead', show x'.offset - c'.offset
      = (c.upTo x.offset).length by omega]
    exact List.drop_left
  have level := sound.level.reads reads
  rw [even, Int.add_zero] at level
  obtain ⟨b, hb⟩ := known
  obtain ⟨first, hfirst, rfl⟩ := Piece.isFilled_ok_iff.mp hb
  have firstLe := sound.trivia_le sound.level hfirst sound.forward
  refine ⟨code', x', ⟨reads', ?_, ?_, ?_, ?_, ?_⟩, behind⟩
  · intro awaited
    rw [sameCode.chars_eq]
  · intro s depth
    obtain ⟨b, runs, angle⟩ := Cutting.over_uncut sameCode.sameChars uncut even depth
    refine ⟨b, runs, fun empty => ?_, fun none closed => (angle none).trans closed⟩
    rw [hb] at empty
    have past := of_decide_eq_false (Except.ok.inj empty)
    have blank := blank_of_trivia sound.level hfirst reads (Nat.le_of_not_lt past)
    rw [← sameCode.chars_eq] at blank
    have here := Cutting.over_of_blank blank s
    rw [runs] at here
    exact congrArg Cutting.angle here
  · intro hf stop' le
    rw [hb] at hf
    obtain ⟨first', agreeFirst, hfirst'⟩ := agree.trivia hfirst (of_decide_eq_true (Except.ok.inj hf))
    have placeFirst := agreeFirst.place
    have lt := of_decide_eq_true (Except.ok.inj hf)
    exact Piece.isFilled_ok_iff.mpr ⟨first', hfirst', (decide_eq_true (by simp only at lt ⊢; omega)).symm⟩
  · intro empty
    rw [hb] at empty
    have past := of_decide_eq_false (Except.ok.inj empty)
    obtain ⟨x'', agreeEnd', onward, further⟩ := agree.trivia_by hfirst sound.level level forward
      (Nat.le_of_not_lt past) (Nat.le_refl _)
    have place' := agreeEnd'.place
    have same' : x'' = x' := onward.eq_of_offset reads'.leadsTo (by omega)
    rw [same'] at further
    exact Piece.isFilled_ok_iff.mpr ⟨x', further x' (trivia_of_stop stop behind),
      (decide_eq_false (Nat.lt_irrefl _)).symm⟩
  · intro stop' le only
    refine ⟨_, _, agree, ⟨x, x, level, rfl, trivia_of_stop stop ahead, rfl⟩, ?_, x', x', reads'.leadsTo,
      by omega, trivia_of_stop stop behind, .inl (Nat.le_of_eq (only rfl))⟩
    simp only
    omega

/-- **What a piece becomes** when a discriminant is appended to it. -/
theorem exists_stretch_some {A : Addition} (reads : Reads c code x)
    (uncut : (Cutting.over ⟨[], c, 0, 0⟩ code).found = []) (even : level (chars code) = 0)
    (sound : (Piece.mk c x.offset).Sound o m i j) (fits : A.Fits ⟨c, x.offset⟩)
    (before : c'.before = c.before) (stop : f = ',' ∨ f = '\x7d') (ahead : x.ahead = f :: r)
    (ahead' : c'.ahead = (Piece.mk c x.offset).extended (some A) ++ f :: r') :
    ∃ new y', Stretch o m ⟨c, x.offset⟩ (some A) code c' new y' ∧ y'.ahead = f :: r' := by
  have fence := isFence_of_stop stop
  have trails := fits.trails_at sound
  have placeLe := trails.le
  obtain ⟨code₀, reads₀⟩ : ∃ code₀, Reads c code₀ A.place := fits.reached
  obtain ⟨tail, rfl, readsTail⟩ := reads₀.split reads placeLe
  obtain ⟨y, trivia, yStop⟩ := fits.trails
  have blank := blank_of_trivia (sound.level.reads reads₀) trivia readsTail (Nat.le_of_eq yStop.symm)
  have long := reads₀.leadsTo.length_upTo
  have forward := reads₀.offset_le
  -- the trivia leave the cutting and the brackets as they are
  have uncut₀ : (Cutting.over ⟨[], c, 0, 0⟩ code₀).found = [] := by
    rw [Cutting.over_append, Cutting.over_of_blank blank] at uncut
    exact uncut
  have even₀ : level (chars code₀) = 0 := by
    rw [chars_append, level_append, level_eq_zero fun ch mem => bracketWeight_of_blank (blank ch mem),
      Int.add_zero] at even
    exact even
  have more : A.place.ahead ≠ [] := by
    have atEnd := readsTail.leadsTo.end_eq
    have onward := readsTail.offset_le
    intro none
    rw [none, ahead, List.length_nil, List.length_cons] at atEnd
    omega
  have agree : Agree A.place.offset (c'.offset + (A.place.offset - c.offset)) c c' := by
    refine ⟨before, c.upTo A.place.offset, A.place.ahead, A.text ++ f :: r', reads₀.leadsTo.ahead_eq, ?_,
      by omega, by omega, fits.fence stop more⟩
    rw [ahead', Piece.extended, List.append_assoc]
  obtain ⟨code', x', reads', agreeEnd, sameCode⟩ := agree.reads reads₀ (Nat.le_refl _)
  have place := agreeEnd.place
  have behind : x'.ahead = A.text ++ f :: r' := by
    rw [reads'.leadsTo.eq_advance, advance_ahead, ahead', show x'.offset - c'.offset
      = (c.upTo A.place.offset).length by omega, Piece.extended, List.append_assoc]
    exact List.drop_left
  obtain ⟨added, readsAdded, nests, runs⟩ := A.toDiscriminant.read fence behind
  have forward' := readsAdded.offset_le
  have noEmpty {p : Prop} (empty : (Piece.mk c x.offset).isFilled = .ok false) : p := by
    rw [fits.filled] at empty
    cases empty
  refine ⟨code' ++ added, _, ⟨reads'.trans readsAdded, ?_, ?_, ?_, noEmpty, ?_⟩, ?_⟩
  · intro awaited
    rw [chars_append, chars_append, nest_append_eq, nest_append_eq, sameCode.chars_eq]
    congr 1
    funext between
    rw [nest_balanced nests, nest_of_plain _ fun ch mem => bracketWeight_of_blank (blank ch mem)]
  · intro s depth
    obtain ⟨b, runs', angle⟩ := Cutting.over_uncut sameCode.sameChars uncut₀ even₀ depth
    obtain ⟨b', runs'', angle'⟩ := runs ⟨s.found, s.start, 0, b⟩ rfl
    refine ⟨b', by rw [Cutting.over_append, runs', runs''], noEmpty, fun none closed => ?_⟩
    rw [Cutting.over_append, Cutting.over_of_blank blank] at closed
    exact angle' ((angle none).trans closed)
  · intro hf stop' le
    obtain ⟨first, hfirst, lt⟩ := Piece.isFilled_ok_iff.mp hf
    have inside := of_decide_eq_true lt.symm
    -- what fills the piece begins before the place
    have early : first.offset < A.place.offset := by
      rcases Nat.lt_or_ge first.offset A.place.offset with early | late
      · exact early
      · obtain ⟨n, trivium⟩ := trails.trivium (hfirst.spec sound.level.near).1 late inside
        rw [hfirst.ends] at trivium
        cases trivium
    obtain ⟨first', agreeFirst, hfirst'⟩ := agree.trivia hfirst early
    have placeFirst := agreeFirst.place
    exact Piece.isFilled_ok_iff.mpr ⟨first', hfirst', (decide_eq_true (by simp only; omega)).symm⟩
  · intro stop' le _
    have equals : x'.ahead = A.gap ++ '=' :: (A.expr ++ f :: r') := by
      rw [behind, Discriminant.text, List.append_assoc]
      rfl
    have there : (x'.advance A.gap.length).ahead = '=' :: (A.expr ++ f :: r') := by
      rw [advance_ahead, equals, List.drop_left]
    refine ⟨_, _, agree, trails, ?_, x', x'.advance A.gap.length, reads'.leadsTo, by omega, ?_, .inr ?_⟩
    · simp only
      omega
    · exact Trivia.blanks equals A.blank
        (.stop (trivium?_of_first (by rw [there]; rfl) rfl (by decide)))
    · rw [sees_iff, there]
      exact ⟨_, rfl⟩
  · rw [advance_ahead, behind, List.drop_left]

/-- **What a piece becomes** when a discriminant or nothing is appended to it. -/
theorem exists_stretch (reads : Reads c code x)
    (uncut : (Cutting.over ⟨[], c, 0, 0⟩ code).found = []) (even : level (chars code) = 0)
    (sound : (Piece.mk c x.offset).Sound o m i j) (known : ∃ b, (Piece.mk c x.offset).isFilled = .ok b)
    (fits : ∀ A ∈ add, A.Fits ⟨c, x.offset⟩) (before : c'.before = c.before)
    (stop : f = ',' ∨ f = '\x7d') (ahead : x.ahead = f :: r) (same : r'.head? = r.head?)
    (ahead' : c'.ahead = (Piece.mk c x.offset).extended add ++ f :: r') :
    ∃ new y', Stretch o m ⟨c, x.offset⟩ add code c' new y' ∧ y'.ahead = f :: r' := by
  cases add with
  | none => exact exists_stretch_none reads uncut even sound known before stop ahead same ahead'
  | some A => exact exists_stretch_some reads uncut even sound (fits A rfl) before stop ahead ahead'

end Stretches

/-! ## §4. What a body becomes. -/

/-- The code `code` of a body, cut into `ps`, becomes the code `new` from `c'` to `d'` when `adds`
are appended to its pieces. -/
inductive Grows (o : Cursor) (m : Int) : Cursor → List (Cursor × Char) → List Piece → List (Option Addition) →
    List (Cursor × Char) → Cursor → Prop where
  | last {p : Piece} {add : Option Addition} {c' d' : Cursor} {code new : List (Cursor × Char)}
      (h : Stretch o m p add code c' new d') : Grows o m c' code [p] [add] new d'
  | cut {p : Piece} {add : Option Addition} {c' x y' d' : Cursor} {ps : List Piece}
      {adds : List (Option Addition)} {code more new more' : List (Cursor × Char)}
      (h : Stretch o m p add code c' new y')
      (closed : (Cutting.over ⟨[], p.start, 0, 0⟩ code).angle = 0) (plain : y'.lexeme? = .ok none)
      (first : y'.ahead.head? = some ',') (rest : Grows o m (y'.advance 1) more ps adds more' d') :
      Grows o m c' (code ++ (x, ',') :: more) (p :: ps) (add :: adds) (new ++ (y', ',') :: more') d'

variable {ps : List Piece} {adds : List (Option Addition)}

theorem Cuts.ne_nil (h : Cuts c code ps d) : ps ≠ [] := by
  cases h with
  | last => exact List.cons_ne_nil _ _
  | cut => exact List.cons_ne_nil _ _

/-- Something stands before the place where a discriminant is appended. -/
theorem Addition.Fits.lt {A : Addition} (h : A.Fits p) : p.start.offset < A.place.offset := by
  obtain ⟨code, reads⟩ := h.reached
  obtain ⟨y, trivia, stop⟩ := h.trails
  obtain ⟨first, hfirst, lt⟩ := Piece.isFilled_ok_iff.mp h.filled
  have inside := of_decide_eq_true lt.symm
  refine Nat.lt_of_le_of_ne reads.offset_le fun same => ?_
  have here : A.place = p.start := (reads.eq_nil (Nat.le_of_eq same.symm)).2
  rw [here] at trivia
  rw [trivia.unique hfirst] at stop
  omega

/-- The first character of a piece, or of what follows it, is what it was. -/
theorem head?_extended (onward : c.LeadsTo x) (fits : ∀ A ∈ add, A.Fits ⟨c, x.offset⟩) {t : Text}
    (same : t.head? = x.ahead.head?) :
    ((Piece.mk c x.offset).extended add ++ t).head? = c.ahead.head? := by
  have kept {y : Cursor} (h : c.LeadsTo y) (lt : c.offset < y.offset) (w : Text) :
      (c.upTo y.offset ++ w).head? = c.ahead.head? := by
    have long := h.length_upTo
    rw [h.ahead_eq]
    cases text : c.upTo y.offset with
    | nil =>
        rw [text, List.length_nil] at long
        omega
    | cons z v => rfl
  cases add with
  | some A =>
      obtain ⟨code, reads⟩ := (fits A rfl).reached
      rw [Piece.extended, List.append_assoc]
      exact kept reads.leadsTo (fits A rfl).lt _
  | none =>
      rcases Nat.lt_or_ge c.offset x.offset with lt | ge
      · exact kept onward lt t
      · have here : x = c := by
          rw [onward.eq_advance, Nat.sub_eq_zero_of_le ge, advance_zero]
        have empty : (Piece.mk c x.offset).text = [] := by
          rw [Piece.text, Cursor.upTo, Nat.sub_eq_zero_of_le ge, List.take_zero]
        rw [Piece.extended, empty, List.nil_append, same, here]

/-- The first character of a body, or of what follows it, is what it was. -/
theorem Cuts.head?_extended (h : Cuts c code ps d)
    (fits : List.Forall₂ (fun p add => ∀ A ∈ add, A.Fits p) ps adds) :
    (extended ps adds ++ d.ahead).head? = c.ahead.head? := by
  cases h with
  | last r _ _ =>
      cases fits with
      | cons here rest =>
          cases rest
          rw [extended_singleton]
          exact EnumExtract.head?_extended r.leadsTo here rfl
  | @cut _ x _ _ _ _ r _ _ first rest =>
      cases fits with
      | cons here more =>
          rw [extended_cons rest.ne_nil more.length_eq, List.append_assoc]
          exact EnumExtract.head?_extended r.leadsTo here first.symm

/-- **What a body becomes** when discriminants are appended to its variants. -/
theorem Cuts.grows (h : Cuts c code ps d) (closes : d.ahead.head? = some '\x7d')
    (sound : ∀ p ∈ ps, p.Sound o m i j) (known : ∀ p ∈ ps, ∃ b, p.isFilled = .ok b)
    (fits : List.Forall₂ (fun p add => ∀ A ∈ add, A.Fits p) ps adds)
    (before : c'.before = c.before) (ahead : c'.ahead = extended ps adds ++ d.ahead) :
    ∃ new d', Grows o m c' code ps adds new d' ∧ d'.ahead = d.ahead := by
  induction h generalizing c' adds with
  | @last c d code r uncut even =>
      cases fits with
      | @cons _ add _ _ here rest =>
          cases rest
          obtain ⟨tail, atEnd⟩ := List.head?_eq_some_iff.mp closes
          rw [extended_singleton, atEnd] at ahead
          obtain ⟨new, d', stretch, ahead'⟩ := exists_stretch r uncut even
            (sound _ List.mem_cons_self) (known _ List.mem_cons_self) here before (.inr rfl) atEnd rfl
            ahead
          exact ⟨new, d', .last stretch, by rw [ahead', atEnd]⟩
  | @cut c x d code more ps r uncut plain first rest ih =>
      cases fits with
      | @cons _ add _ adds here fits =>
          obtain ⟨tail, atComma⟩ := List.head?_eq_some_iff.mp first
          have behind : (x.advance 1).ahead = tail := by
            rw [advance_ahead, atComma]
            rfl
          rw [extended_cons rest.ne_nil fits.length_eq, List.append_assoc, List.cons_append] at ahead
          have even := Cutting.depth_over code ⟨[], c, 0, 0⟩
          rw [uncut] at even
          have same := rest.head?_extended fits
          rw [behind] at same
          obtain ⟨new, y', stretch, ahead'⟩ := exists_stretch r (by rw [uncut])
            (by simpa using even.symm) (sound _ List.mem_cons_self) (known _ List.mem_cons_self) here
            before (.inl rfl) atComma same ahead
          have first' : y'.ahead.head? = some ',' := by
            rw [ahead']
            rfl
          have plain' : y'.lexeme? = .ok none := by
            refine lexeme?_eq_none fun ch first => ?_
            rw [first'] at first
            cases first
            rfl
          have comma {z : Cursor} (h : z.ahead.head? = some ',') : (z.advance 1).before = some ',' := by
            rw [advance, if_neg (by decide), ← h, List.head?_eq_getElem?]
          obtain ⟨more', d', grows, atEnd⟩ := @ih (y'.advance 1) _ closes (fun p mem => sound p (List.mem_cons_of_mem _ mem))
            (fun p mem => known p (List.mem_cons_of_mem _ mem)) fits
            ((comma first').trans (comma first).symm) (by rw [advance_ahead, ahead']; rfl)
          exact ⟨_, d', .cut stretch (by rw [uncut]) plain' first' grows, atEnd⟩

theorem Grows.reads (h : Grows o m c' code ps adds new d) : Reads c' new d := by
  induction h with
  | last h => exact h.reads
  | cut h _ plain first _ ih => exact h.reads.trans (.char plain first ih)

/-- Appended discriminants leave the brackets of a body balanced. -/
theorem Grows.nests (h : Grows o m c' code ps adds new d) : ∀ awaited,
    nest awaited (chars new) = nest awaited (chars code) := by
  induction h with
  | last h => exact h.nests
  | cut h _ _ _ _ ih =>
      intro awaited
      rw [chars_append, chars_append, nest_append_eq, nest_append_eq, h.nests]
      congr 1
      funext between
      rw [chars_cons, chars_cons, nest_cons between _ (chars _), nest_cons between ',' (chars _)]
      congr 1
      funext inner
      exact ih inner

end EnumExtract
