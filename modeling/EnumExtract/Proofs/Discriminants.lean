/-
  EnumExtract.Proofs.Discriminants
  ────────────────────────────────
  Explicit discriminants are passed over, but for the angle brackets in them.

  A comma behind a discriminant cuts the body if the discriminant leaves no
  angle bracket open.  If it leaves one open, the comma belongs to the
  expression, and so do the variants behind it, up to a comma where the
  bracket is closed again: there are fewer variants then, and no fault.

  Main results:
    • `Grows.kept`                  no variant is lost while the angle brackets are closed,
    • `Grows.fewer`                 and one is lost if they are not,
    • `readBody_withDiscriminants_iff`   when the variants stay what they were.
-/
import EnumExtract.Proofs.Appending
import EnumExtract.Proofs.Declarations

namespace EnumExtract

open Cursor

variable {o c c' d d' : Cursor} {p : Piece} {m : Int} {ps : List Piece}
  {adds : List (Option Addition)} {code new : List (Cursor × Char)}

/-! ## §1. Commas behind discriminants. -/

/-- The piece is known to hold something other than trivia. -/
def Piece.filled (p : Piece) : Bool :=
  holds Piece.isFilled p

theorem Piece.filled_of_ok {b : Bool} (h : p.isFilled = .ok b) : p.filled = b :=
  holds_of_ok h

/-- No discriminant that another variant follows leaves an angle bracket open. -/
def AnglesClosed (ps : List Piece) (adds : List (Option Addition)) : Prop :=
  (ps.zip adds).Pairwise fun x y => y.1.filled = true → ∀ A ∈ x.2, A.angles = 0

theorem Cutting.read_comma_deep {s : Cutting} (deep : 0 < s.angle) (place : Cursor) :
    s.read place ',' = s := by
  have some : s.angle ≠ 0 := by omega
  simp [Cutting.read, closer?, isCloser, some]

/-- A comma does not cut where an angle bracket is open. -/
theorem Cutting.over_comma_deep {s : Cutting} (deep : 0 < s.angle) (place : Cursor)
    (code : List (Cursor × Char)) : s.over ((place, ',') :: code) = s.over code := by
  rw [Cutting.over_cons, Cutting.read_comma_deep deep]

/-- Over trivia, open angle brackets stay open. -/
theorem Grows.over_empty (h : Grows o m c' code ps adds new d')
    (empty : ∀ p ∈ ps, p.isFilled = .ok false) : ∀ s : Cutting, s.depth = 0 → 0 < s.angle →
      s.over new = s := by
  have still {p : Piece} {add : Option Addition} {code new : List (Cursor × Char)} {c' y' : Cursor}
      (h : Stretch o m p add code c' new y') (empty : p.isFilled = .ok false) {s : Cutting}
      (depth : s.depth = 0) : s.over new = s := by
    obtain ⟨b, runs, same, _⟩ := h.uncut s depth
    rw [runs, same empty, ← depth]
  induction h with
  | last h =>
      intro s depth _
      exact still h (empty _ List.mem_cons_self) depth
  | cut h _ _ _ _ ih =>
      intro s depth deep
      rw [Cutting.over_append, still h (empty _ List.mem_cons_self) depth, Cutting.over_comma_deep deep]
      exact ih (fun p mem => empty p (List.mem_cons_of_mem _ mem)) s depth deep

theorem AnglesClosed.tail {add : Option Addition} (h : AnglesClosed (p :: ps) (add :: adds)) :
    AnglesClosed ps adds :=
  (List.pairwise_cons.mp h).2

/-- Behind a discriminant that leaves an angle bracket open, only trivia follow. -/
theorem AnglesClosed.empty {A : Addition} (h : AnglesClosed (p :: ps) (some A :: adds))
    (same : ps.length = adds.length) (opens : A.angles ≠ 0) : ∀ q ∈ ps, q.filled = false := by
  intro q mem
  obtain ⟨k, lt, rfl⟩ := List.getElem_of_mem mem
  have inside : (ps[k], adds[k]) ∈ ps.zip adds := by
    have there : k < (ps.zip adds).length := by
      rw [List.length_zip]
      omega
    rw [← List.getElem_zip (h := there)]
    exact List.getElem_mem there
  have here := (List.pairwise_cons.mp h).1 _ inside
  rw [Bool.eq_false_iff]
  intro filled
  exact opens (here filled A rfl)

theorem Grows.length_eq (h : Grows o m c' code ps adds new d') : ps.length = adds.length := by
  induction h with
  | last => rfl
  | cut _ _ _ _ _ ih => rw [List.length_cons, List.length_cons, ih]

/-! ## §2. Pieces that are kept. -/

/-- A stretch up to its own end, or beyond it behind a discriminant, is filled as the piece was
that it comes from. -/
theorem Stretch.piece {add : Option Addition} {y' : Cursor} {stop : Nat}
    (h : Stretch o m p add code c' new y') (known : p.isFilled = .ok p.filled)
    (le : y'.offset ≤ stop) (here : p.filled = false ∨ add = none → stop = y'.offset) :
    (Piece.mk c' stop).isFilled = .ok p.filled ∧ ∃ e e', p.Grown o m e e' ⟨c', stop⟩ := by
  refine ⟨?_, h.grown stop le fun none => here (.inr none)⟩
  cases hp : p.filled with
  | true => exact h.filled (by rw [known, hp]) stop le
  | false =>
      rw [here (.inl hp)]
      exact h.empty (by rw [known, hp])

/-- A discriminant that leaves an angle bracket open is appended to a variant. -/
theorem Piece.filled_of_open {b : Nat} (known : p.isFilled = .ok p.filled) (empty : p.isFilled = .ok false → b = 0) (deep : 0 < b) :
    p.filled = true := by
  rw [← Bool.not_eq_false]
  intro unfilled
  rw [unfilled] at known
  have none := empty known
  omega

/-- **No variant is lost** while the angle brackets are closed: every piece with a variant grows
to a piece of the new body, and there are no others. -/
theorem Grows.kept (h : Grows o m c' code ps adds new d') (known : ∀ p ∈ ps, p.isFilled = .ok p.filled)
    (closed : AnglesClosed ps adds) :
    (∀ q ∈ (Cutting.over ⟨[], c', 0, 0⟩ new).pieces d'.offset, q.isFilled = .ok q.filled)
      ∧ List.Forall₂ (fun p q => ∃ e e', p.Grown o m e e' q) (ps.filter Piece.filled)
        (((Cutting.over ⟨[], c', 0, 0⟩ new).pieces d'.offset).filter Piece.filled) := by
  -- a piece and the stretch that it becomes
  have single {p : Piece} {q : Piece} (hq : q.isFilled = .ok p.filled)
      (grown : ∃ e e', p.Grown o m e e' q) (ps qs : List Piece)
      (rest : List.Forall₂ (fun p q => ∃ e e', p.Grown o m e e' q) (ps.filter Piece.filled)
        (qs.filter Piece.filled)) (all : ∀ r ∈ qs, r.isFilled = .ok r.filled) :
      (∀ r ∈ q :: qs, r.isFilled = .ok r.filled)
        ∧ List.Forall₂ (fun p q => ∃ e e', p.Grown o m e e' q) ((p :: ps).filter Piece.filled)
          ((q :: qs).filter Piece.filled) := by
    have same := Piece.filled_of_ok hq
    refine ⟨List.forall_mem_cons.mpr ⟨by rw [same, hq], all⟩, ?_⟩
    rw [List.filter_cons, List.filter_cons, same]
    cases p.filled with
    | true => exact .cons grown rest
    | false => exact rest
  induction h with
  | @last p add c' d' code new h =>
      have knownHere := known _ List.mem_cons_self
      obtain ⟨b, runs, _, _⟩ := h.uncut ⟨[], c', 0, 0⟩ rfl
      obtain ⟨hq, grown⟩ := h.piece knownHere (Nat.le_refl _) fun _ => rfl
      rw [runs]
      exact single hq grown [] [] .nil (List.forall_mem_nil _)
  | @cut p add c' x y' d' ps adds code more new more' h closedHere plain first rest ih =>
      have knownHere := known _ List.mem_cons_self
      have knownRest := fun q mem => known q (List.mem_cons_of_mem _ mem)
      obtain ⟨b, runs, empty, angle⟩ := h.uncut ⟨[], c', 0, 0⟩ rfl
      rw [Cutting.over_append, runs]
      rcases Nat.eq_zero_or_pos b with rfl | deep
      · obtain ⟨all, kept⟩ := ih knownRest closed.tail
        obtain ⟨hq, grown⟩ := h.piece knownHere (Nat.le_refl _) fun _ => rfl
        rw [Cutting.pieces_comma]
        exact single hq grown _ _ kept all
      · -- only trivia follow, and the last variant takes them in
        have filled := Piece.filled_of_open knownHere empty deep
        have opens := angle rfl closedHere
        cases add with
        | none => exact absurd opens (Nat.ne_of_gt deep)
        | some A =>
            have none := closed.empty rest.length_eq (A := A) (by
              rw [Option.elim_some] at opens
              omega)
            have still := rest.over_empty (fun q mem => by rw [knownRest q mem, none q mem])
              ⟨[], c', 0, b⟩ rfl deep
            rw [Cutting.over_comma_deep (s := ⟨[], c', 0, b⟩) deep, still]
            have onward := rest.reads.offset_le
            have le : y'.offset ≤ d'.offset := by
              rw [advance_offset] at onward
              omega
            obtain ⟨hq, grown⟩ := h.piece knownHere le (by rw [filled]; nofun)
            refine single hq grown ps [] ?_ (List.forall_mem_nil _)
            rw [List.filter_eq_nil_iff.mpr fun q mem => by rw [none q mem]; decide]
            exact .nil

/-! ## §3. Pieces that are lost. -/

/-- The number of pieces that hold something other than trivia. -/
def filledCount (ps : List Piece) : Nat :=
  (ps.filter Piece.filled).length

@[simp] theorem filledCount_cons (p : Piece) (ps : List Piece) :
    filledCount (p :: ps) = p.filled.toNat + filledCount ps := by
  unfold filledCount
  rw [List.filter_cons]
  cases p.filled <;> simp +arith

theorem filledCount_pos {q : Piece} (mem : q ∈ ps) (filled : q.filled = true) : 0 < filledCount ps :=
  List.length_pos_of_mem (List.mem_filter.mpr ⟨mem, filled⟩)

/-- **There are never more pieces** with something in them than before, and where an angle bracket
is open from the start, those behind the first are fewer. -/
theorem Grows.count_le (h : Grows o m c' code ps adds new d')
    (known : ∀ p ∈ ps, p.isFilled = .ok p.filled) :
    filledCount ((Cutting.over ⟨[], c', 0, 0⟩ new).pieces d'.offset) ≤ filledCount ps
      ∧ ∀ (start : Cursor) (a : Nat), 0 < a →
          ∃ q qs, (Cutting.over ⟨[], start, 0, a⟩ new).pieces d'.offset = q :: qs
            ∧ filledCount qs ≤ filledCount ps - 1 := by
  have toNat_le (b : Bool) : b.toNat ≤ 1 := Bool.toNat_le b
  induction h with
  | @last p add c' d' code new h =>
      constructor
      · obtain ⟨b, runs, _, _⟩ := h.uncut ⟨[], c', 0, 0⟩ rfl
        obtain ⟨hq, _⟩ := h.piece (known _ List.mem_cons_self) (Nat.le_refl _) fun _ => rfl
        rw [runs]
        simp [Cutting.pieces, Piece.filled_of_ok hq]
      · intro start a _
        obtain ⟨b, runs, _, _⟩ := h.uncut ⟨[], start, 0, a⟩ rfl
        rw [runs]
        exact ⟨_, [], rfl, Nat.zero_le _⟩
  | @cut p add c' x y' d' ps adds code more new more' h closedHere plain first rest ih =>
      have knownHere := known _ List.mem_cons_self
      obtain ⟨fresh, opened⟩ := ih fun q mem => known q (List.mem_cons_of_mem _ mem)
      constructor
      · obtain ⟨b, runs, empty, _⟩ := h.uncut ⟨[], c', 0, 0⟩ rfl
        rw [Cutting.over_append, runs]
        rcases Nat.eq_zero_or_pos b with rfl | deep
        · obtain ⟨hq, _⟩ := h.piece knownHere (Nat.le_refl _) fun _ => rfl
          rw [Cutting.pieces_comma, filledCount_cons, filledCount_cons,
            Piece.filled_of_ok hq]
          omega
        · have filled := Piece.filled_of_open knownHere empty deep
          obtain ⟨q, qs, pieces, le⟩ := opened c' b deep
          rw [Cutting.over_comma_deep (s := ⟨[], c', 0, b⟩) deep, pieces, filledCount_cons,
            filledCount_cons, filled]
          have := toNat_le q.filled
          simp only [Bool.toNat_true]
          omega
      · intro start a deep
        obtain ⟨b, runs, empty, _⟩ := h.uncut ⟨[], start, 0, a⟩ rfl
        rw [Cutting.over_append, runs, filledCount_cons]
        rcases Nat.eq_zero_or_pos b with rfl | deep'
        · have filled : p.filled = true := by
            rw [← Bool.not_eq_false]
            intro unfilled
            rw [unfilled] at knownHere
            have same := empty knownHere
            simp only at same
            omega
          rw [Cutting.pieces_comma]
          refine ⟨_, _, rfl, ?_⟩
          rw [filled, Bool.toNat_true]
          omega
        · obtain ⟨q, qs, pieces, le⟩ := opened start b deep'
          rw [Cutting.over_comma_deep (s := ⟨[], start, 0, b⟩) deep', pieces]
          exact ⟨q, qs, rfl, by omega⟩

/-- **A variant is lost** if an angle bracket is left open before it. -/
theorem Grows.fewer (h : Grows o m c' code ps adds new d')
    (known : ∀ p ∈ ps, p.isFilled = .ok p.filled) (opens : ¬ AnglesClosed ps adds) :
    filledCount ((Cutting.over ⟨[], c', 0, 0⟩ new).pieces d'.offset) < filledCount ps := by
  induction h with
  | last => exact absurd (List.pairwise_singleton _ _) opens
  | @cut p add c' x y' d' ps adds code more new more' h closedHere plain first rest ih =>
      have knownHere := known _ List.mem_cons_self
      have knownRest := fun q mem => known q (List.mem_cons_of_mem _ mem)
      obtain ⟨b, runs, empty, angle⟩ := h.uncut ⟨[], c', 0, 0⟩ rfl
      rw [Cutting.over_append, runs]
      rcases Nat.eq_zero_or_pos b with rfl | deep
      · -- the bracket is left open further on
        have opensRest : ¬ AnglesClosed ps adds := by
          refine fun closed => opens (List.pairwise_cons.mpr ⟨fun y _ _ A mem => ?_, closed⟩)
          obtain rfl : add = some A := mem
          exact (angle rfl closedHere).symm
        obtain ⟨hq, _⟩ := h.piece knownHere (Nat.le_refl _) fun _ => rfl
        have := ih knownRest opensRest
        rw [Cutting.pieces_comma, filledCount_cons, filledCount_cons,
          Piece.filled_of_ok hq]
        omega
      · have filled := Piece.filled_of_open knownHere empty deep
        have some : 0 < filledCount ps := by
          rw [Nat.pos_iff_ne_zero]
          intro none
          have noneFilled : ∀ q ∈ ps, q.filled = true → False := fun q mem filled =>
            Nat.ne_of_gt (filledCount_pos mem filled) none
          have later : ∀ y ∈ ps.zip adds, y.1.filled = true → False := fun y mem =>
            noneFilled y.1 (List.of_mem_zip mem).1
          refine opens (List.pairwise_cons.mpr ⟨fun y mem filled => (later y mem filled).elim, ?_⟩)
          exact List.pairwise_iff_forall_sublist.mpr fun sub filled =>
            (later _ (sub.subset (by simp)) filled).elim
        obtain ⟨q, qs, pieces, le⟩ := (rest.count_le knownRest).2 c' b deep
        rw [Cutting.over_comma_deep (s := ⟨[], c', 0, b⟩) deep, pieces, filledCount_cons,
          filledCount_cons, filled]
        have := Bool.toNat_le q.filled
        simp only [Bool.toNat_true]
        omega

/-! ## §4. Bodies with discriminants. -/

/-- The source with discriminants appended to the variants of a body, which goes from `opening`
to `close` and is cut into `ps`. -/
def Text.withDiscriminants (source : Text) (opening close : Cursor) (ps : List Piece)
    (adds : List (Option Addition)) : Text :=
  source.take (opening.offset + 1) ++ (extended ps adds ++ close.ahead)

/-- The places of a source up to behind the opening brace stay what they are. -/
theorem Text.ahead_withDiscriminants {source : Text} {opening close : Cursor} {rest : Text}
    (onward : (source.cursor 0).LeadsTo opening) (opens : opening.ahead = '\x7b' :: rest) :
    ((source.withDiscriminants opening close ps adds).cursor opening.offset).ahead
      = '\x7b' :: (extended ps adds ++ close.ahead) := by
  have here := cursor_of_leadsTo onward
  rw [here] at opens
  have there : source.drop opening.offset = '\x7b' :: rest := opens
  have long : (source.take opening.offset).length = opening.offset := by
    rw [List.length_take, Nat.min_eq_left]
    have longer := congrArg List.length there
    rw [List.length_drop, List.length_cons] at longer
    omega
  have first : source[opening.offset]? = some '\x7b' := by
    rw [← List.head?_drop, there]
    rfl
  show (source.withDiscriminants opening close ps adds).drop opening.offset = _
  rw [Text.withDiscriminants, List.take_add_one, List.append_assoc, first]
  exact List.drop_left' long

namespace Variant

/-- Pieces that have grown are read to variants that are alike. -/
theorem forall₂_read_grown {source source' : Text} {i j : Nat} {qs : List Piece}
    (onward : (source.cursor 0).LeadsTo o)
    (grown : List.Forall₂ (fun p q => ∃ e e', p.Grown o m e e' q) ps qs) :
    ∀ {vs : List Variant}, (∀ p ∈ ps, p.Sound o m i j) →
      (∀ q ∈ qs, (source'.cursor 0).LeadsTo q.start) →
      List.Forall₂ (fun p v => Variant.read source p = .ok v) ps vs →
      ∃ vs', List.Forall₂ (fun q v => Variant.read source' q = .ok v) qs vs'
        ∧ List.Forall₂ Like vs vs' := by
  induction grown with
  | nil =>
      intro vs _ _ each
      cases each
      exact ⟨[], .nil, .nil⟩
  | cons here _ ih =>
      intro vs sound places each
      cases each with
      | cons hv each =>
          obtain ⟨e, e', grown⟩ := here
          have soundHere := sound _ List.mem_cons_self
          obtain ⟨v', hv', like⟩ := grown.read soundHere (onward.trans soundHere.level.leadsTo)
            (places _ List.mem_cons_self) hv
          obtain ⟨vs', each', alike⟩ := ih (fun p mem => sound p (List.mem_cons_of_mem _ mem))
            (fun q mem => places q (List.mem_cons_of_mem _ mem)) each
          exact ⟨v' :: vs', .cons hv' each', .cons like alike⟩

theorem map_name_of_like {vs vs' : List Variant} (alike : List.Forall₂ Like vs vs') :
    vs'.map (·.name) = vs.map (·.name) := by
  induction alike with
  | nil => rfl
  | cons like _ ih => rw [List.map_cons, List.map_cons, like.name, ih]

/-- **Discriminants are passed over just where they leave no angle bracket open** before another
variant: the body with the discriminants has then the variants that it has without them. -/
theorem readBody_withDiscriminants_iff {source : Text} {opening close : Cursor} {vs : List Variant}
    (onward : (source.cursor 0).LeadsTo opening) (opens : opening.sees "\x7b" = true)
    (closing : opening.closing = .ok close)
    (cut : (opening.advance 1).allPieces close.offset = .ok ps)
    (fits : List.Forall₂ (fun p add => ∀ A ∈ add, A.Fits p) ps adds)
    (read : readBody source opening close.offset = .ok vs) :
    ∃ close', ((source.withDiscriminants opening close ps adds).cursor opening.offset).closing
        = .ok close' ∧ close'.ahead = close.ahead
      ∧ ((∃ vs', readBody (source.withDiscriminants opening close ps adds)
            ((source.withDiscriminants opening close ps adds).cursor opening.offset) close'.offset
              = .ok vs' ∧ List.Forall₂ Like vs vs')
          ↔ AnglesClosed ps adds) := by
  obtain ⟨rest, atBrace⟩ := sees_iff.mp opens
  have atBrace : opening.ahead = '\x7b' :: rest := atBrace
  have atBrace' : ((source.withDiscriminants opening close ps adds).cursor opening.offset).ahead
      = '\x7b' :: (extended ps adds ++ close.ahead) := Text.ahead_withDiscriminants onward atBrace
  generalize source.withDiscriminants opening close ps adds = source' at atBrace'
  -- the body as it was
  obtain ⟨code, encloses⟩ := closing_ok_iff.mp closing
  have last : close.ahead.head? = some '\x7d' := by
    obtain ⟨opener, closer, first, hc, last⟩ := encloses.closes
    rw [atBrace] at first
    cases Option.some.inj first
    rw [last]
    exact hc.symm
  have even := length_of_nest encloses.nests
  rw [List.length_nil] at even
  have start := Level.start (opening.advance 1)
  have atEnd : CodeAt (opening.advance 1) close '\x7d' 0 := by
    have here := start.reads encloses.reads
    rw [show level (chars code) = 0 by omega] at here
    exact here.bracket last (.inr rfl)
  obtain ⟨_, sound⟩ := allPieces_sound start encloses.reads atEnd rfl cut
  obtain ⟨pieces, hpieces, readAll⟩ := readBody_ok_iff.mp read
  rw [Cursor.pieces, cut] at hpieces
  obtain ⟨known, rfl⟩ := filterM_ok_iff.mp hpieces
  -- the body with the discriminants
  have before {c : Cursor} {r : Text} (h : c.ahead = '\x7b' :: r) :
      (c.advance 1).before = some '\x7b' ∧ (c.advance 1).ahead = r := by
    rw [advance, if_neg (by decide), h]
    exact ⟨rfl, rfl⟩
  obtain ⟨new, close', grows, ahead⟩ := (Cuts.of_reads encloses.reads (by omega) cut).grows last sound
    (fun p mem => ⟨_, known p mem⟩) fits
    ((before atBrace').1.trans (before atBrace).1.symm) (before atBrace').2
  have encloses' : Encloses (source'.cursor opening.offset) new close' :=
    ⟨grows.reads, by rw [grows.nests, encloses.nests], '\x7b', '\x7d', by rw [atBrace']; rfl, rfl,
      by rw [ahead, last]⟩
  have cut' := allPieces_of_reads grows.reads
  generalize hqs : (Cutting.over ⟨[], (source'.cursor opening.offset).advance 1, 0, 0⟩ new).pieces
    close'.offset = qs at cut'
  refine ⟨close', closing_ok_iff.mpr ⟨new, encloses'⟩, ahead, fun found => ?_, fun closed => ?_⟩
  · -- as many variants as before
    obtain ⟨vs', read', alike⟩ := found
    by_contra opens
    have fewer := grows.fewer known opens
    obtain ⟨filled, hfilled, readAll'⟩ := readBody_ok_iff.mp read'
    rw [Cursor.pieces, cut'] at hfilled
    obtain ⟨_, rfl⟩ := filterM_ok_iff.mp hfilled
    have old : filledCount ps = vs.length := (readAll_ok_iff.mp readAll).1.length_eq
    have new : filledCount qs = vs'.length := (readAll_ok_iff.mp readAll').1.length_eq
    have same := alike.length_eq
    rw [hqs] at fewer
    omega
  · obtain ⟨filled, grown⟩ := grows.kept known closed
    rw [hqs] at filled grown
    have atEnd' : CodeAt ((source'.cursor opening.offset).advance 1) close' '\x7d' 0 := by
      have here := (Level.start ((source'.cursor opening.offset).advance 1)).reads grows.reads
      have even' := length_of_nest encloses'.nests
      rw [List.length_nil] at even'
      rw [show level (chars new) = 0 by omega] at here
      exact here.bracket (by rw [ahead, last]) (.inr rfl)
    obtain ⟨_, sound'⟩ := allPieces_sound (Level.start _) grows.reads atEnd' rfl cut'
    have onward' : (source'.cursor 0).LeadsTo (source'.cursor opening.offset) := by
      refine leadsTo_cursor ?_
      have some : source'.drop opening.offset = '\x7b' :: (extended ps adds ++ close.ahead) := atBrace'
      have longer := congrArg List.length some
      rw [List.length_drop, List.length_cons] at longer
      omega
    obtain ⟨each, distinct⟩ := readAll_ok_iff.mp readAll
    obtain ⟨vs', each', alike⟩ := forall₂_read_grown
      (onward.trans (leadsTo_first (by rw [atBrace]; rfl))) grown
      (fun p mem => sound p (List.mem_filter.mp mem).1)
      (fun q mem => (onward'.trans (leadsTo_first (by rw [atBrace']; rfl))).trans
        (sound' q (List.mem_filter.mp mem).1).level.leadsTo) each
    refine ⟨vs', readBody_ok_iff.mpr ⟨_, ?_, readAll_ok_iff.mpr ⟨each', ?_⟩⟩, alike⟩
    · rw [Cursor.pieces, cut']
      exact filterM_ok_iff.mpr ⟨filled, rfl⟩
    · rwa [map_name_of_like alike]

/-! ## §5. Two bodies. -/

/-- A body with two variants. -/
def plainEnum : Text := "enum E \x7b A, B(u8) \x7d"

/-- The opening brace of the body. -/
def plainBody : Cursor := plainEnum.cursor 7

/-- The closing brace of the body. -/
def plainClose : Cursor := plainEnum.cursor 18

/-- The shift of a constant, behind a variant. -/
def shift (place : Cursor) : Addition where
  gap := " "
  expr := "1<<3"
  code := [(probe "1<<3", '1'), ((probe "1<<3").advance 1, '<'),
    (((probe "1<<3").advance 1).advance 1, '<'),
    ((((probe "1<<3").advance 1).advance 1).advance 1, '3')]
  blank := by decide
  reads := .char rfl rfl (.char rfl rfl (.char rfl rfl (.char rfl rfl (.here _))))
  balanced := rfl
  uncut := rfl
  place := place

/-- The first of its variants, and the second up to the brace. -/
def plainPieces : List Piece :=
  [⟨plainEnum.cursor 8, 10⟩, ⟨plainEnum.cursor 11, 18⟩]

/-- The shift behind the second variant. -/
def shiftLast : List (Option Addition) :=
  [none, some (shift (plainEnum.cursor 17))]

theorem shiftLast_fits :
    List.Forall₂ (fun p add => ∀ A ∈ add, Addition.Fits A p) plainPieces shiftLast := by
  refine .cons nofun (.cons ?_ .nil)
  intro A mem
  cases mem
  have plain : ∀ k < " B(u8)".toList.length,
      ((plainEnum.cursor 11).advance k).lexeme? = .ok none := by decide +kernel
  have written : (plainEnum.cursor 11).ahead = " B(u8)" ++ " \x7d" := by decide +kernel
  obtain ⟨code, reads, _⟩ := reads_plain written plain
  exact ⟨by decide +kernel, ⟨code, reads⟩, ⟨plainEnum.cursor 18, .pass rfl (.stop rfl), rfl⟩, nofun⟩

/-- A shift behind the last variant is passed over. -/
theorem shiftLast_passed :
    plainEnum.withDiscriminants plainBody plainClose plainPieces shiftLast
        = "enum E \x7b A, B(u8) =1<<3\x7d".toList
      ∧ ∃ vs close', readBody plainEnum plainBody plainClose.offset = .ok vs
        ∧ ∃ vs', readBody (plainEnum.withDiscriminants plainBody plainClose plainPieces shiftLast)
            ((plainEnum.withDiscriminants plainBody plainClose plainPieces shiftLast).cursor
              plainBody.offset) close' = .ok vs'
          ∧ List.Forall₂ Like vs vs' := by
  have onward : (plainEnum.cursor 0).LeadsTo plainBody := leadsTo_cursor (by decide)
  have closing : plainBody.closing = .ok plainClose := by decide +kernel
  have cut : (plainBody.advance 1).allPieces plainClose.offset = .ok plainPieces := by decide +kernel
  obtain ⟨vs, read, _⟩ : ∃ vs, readBody plainEnum plainBody plainClose.offset = .ok vs
      ∧ vs.length = 2 := exists_ok_of_decide (by decide +kernel)
  have closed : AnglesClosed plainPieces shiftLast :=
    .cons (fun y _ _ A none => nomatch none) (List.pairwise_singleton _ _)
  obtain ⟨close', _, _, same⟩ := readBody_withDiscriminants_iff onward (by decide) closing cut
    shiftLast_fits read
  obtain ⟨vs', read', alike⟩ := same.mpr closed
  exact ⟨by decide +kernel, vs, close'.offset, read, vs', read', alike⟩

/-- **A shift before another variant takes it in**, though it is an expression like any other. -/
theorem shiftFirst_merges :
    (∃ vs, readBody "enum E \x7b A, B \x7d" (Text.cursor "enum E \x7b A, B \x7d" 7) 14 = .ok vs
        ∧ vs.map (·.name) = ["A", "B"])
      ∧ ∃ vs, readBody "enum E \x7b A = 1 << 3, B \x7d" (Text.cursor "enum E \x7b A = 1 << 3, B \x7d" 7) 23
          = .ok vs ∧ vs.map (·.name) = ["A"] :=
  ⟨exists_ok_of_decide (by decide +kernel), exists_ok_of_decide (by decide +kernel)⟩

end Variant

end EnumExtract
