/-
  EnumExtract.Proofs.LockstepPieces
  ────────────────────────────────
  Outcomes that are alike, and lists in two texts that are read in lockstep.

  Two computations are alike if both succeed with related results or both fail
  with faults of the same class.  This goes through sequences, lists and walks;
  so it is enough to know it of one step.  A reader whose faults are all of one
  class has like outcomes if it succeeds in both texts or in neither, and that
  is what lockstep both ways says.

  Main results:
    • `Alike.walk`              walks with like steps have like outcomes,
    • `BothWays.closing`        and so do the readers of the lexical level,
    • `BothWays.pieces`         and the cutting of lists into pieces.
-/
import EnumExtract.Proofs.LockstepScan

namespace EnumExtract

open Cursor

/-! ## §1. Outcomes that are alike. -/

/-- Both computations succeed and their results are related by `S`, or both fail with faults of the
same class. -/
inductive Alike {α β : Type} (S : α → β → Prop) : Except Fault α → Except Fault β → Prop where
  | ok {a : α} {b : β} (h : S a b) : Alike S (.ok a) (.ok b)
  | error {f f' : Fault} (h : f'.cause.code = f.cause.code) : Alike S (.error f) (.error f')

namespace Alike

variable {α β γ δ : Type} {S : α → β → Prop} {T : γ → δ → Prop} {x : Except Fault α} {x' : Except Fault β}

theorem refl (x : Except Fault α) : Alike Eq x x := by
  cases x with
  | ok a => exact .ok rfl
  | error fault => exact .error rfl

theorem imp {S' : α → β → Prop} (h : Alike S x x') (weaker : ∀ a b, S a b → S' a b) : Alike S' x x' := by
  cases h with
  | ok h => exact .ok (weaker _ _ h)
  | error h => exact .error h

theorem bind {f : α → Except Fault γ} {f' : β → Except Fault δ} (h : Alike S x x')
    (next : ∀ a b, S a b → Alike T (f a) (f' b)) : Alike T (x >>= f) (x' >>= f') := by
  cases h with
  | ok h => exact next _ _ h
  | error h => exact .error h

/-- What succeeds is alike to what succeeds. -/
theorem exists_of_ok {a : α} (h : Alike S (.ok a) x') : ∃ b, x' = .ok b ∧ S a b := by
  cases h with
  | ok h => exact ⟨_, rfl, h⟩

theorem ite {p p' : Prop} [Decidable p] [Decidable p'] {y : Except Fault α} {y' : Except Fault β}
    (same : p' ↔ p) (yes : p → Alike S x x') (no : ¬ p → Alike S y y') :
    Alike S (if p then x else y) (if p' then x' else y') := by
  by_cases h : p
  · rw [if_pos h, if_pos (same.mpr h)]
    exact yes h
  · rw [if_neg h, if_neg fun h' => h (same.mp h')]
    exact no h

/-- Readers whose faults are parse errors have like outcomes, if they succeed both or not at all. -/
theorem of_misread {n n' : Nat} {P : α → Prop} {P' : β → Prop} (h : Misread n P x) (h' : Misread n' P' x')
    (forth : ∀ a, x = .ok a → ∃ b, x' = .ok b ∧ S a b) (back : ∀ b, x' = .ok b → ∃ a, x = .ok a) :
    Alike S x x' := by
  cases x with
  | ok a =>
      obtain ⟨b, rfl, related⟩ := forth a rfl
      exact .ok related
  | error fault =>
      cases x' with
      | ok b =>
          obtain ⟨a, ha⟩ := back b rfl
          cases ha
      -- all parse errors are of one class
      | error fault' => exact .error (h'.2.trans h.2.symm)

theorem mapM {f : α → Except Fault γ} {f' : β → Except Fault δ} {xs : List α} {ys : List β}
    (all : List.Forall₂ S xs ys) (each : ∀ a b, S a b → Alike T (f a) (f' b)) :
    Alike (List.Forall₂ T) (xs.mapM f) (ys.mapM f') := by
  induction all with
  | nil => exact .ok .nil
  | cons here _ ih =>
      rw [List.mapM_cons, List.mapM_cons]
      exact (each _ _ here).bind fun c d first => ih.bind fun cs ds rest => .ok (.cons first rest)

theorem foldlM {f : γ → α → Except Fault γ} {f' : δ → β → Except Fault δ} {xs : List α} {ys : List β}
    (all : List.Forall₂ S xs ys) (each : ∀ c d a b, T c d → S a b → Alike T (f c a) (f' d b)) :
    ∀ {c : γ} {d : δ}, T c d → Alike T (xs.foldlM f c) (ys.foldlM f' d) := by
  induction all with
  | nil => exact fun start => .ok start
  | cons here _ ih =>
      intro c d start
      rw [List.foldlM_cons, List.foldlM_cons]
      exact (each c d _ _ start here).bind fun _ _ next => ih next

theorem anyM {p : α → Except Fault Bool} {p' : β → Except Fault Bool}
    {xs : List α} {ys : List β} (all : List.Forall₂ S xs ys) (each : ∀ a b, S a b → Alike Eq (p a) (p' b)) :
    Alike Eq (xs.anyM p) (ys.anyM p') := by
  induction all with
  | nil => exact .ok rfl
  | cons here _ ih =>
      rw [List.anyM, List.anyM]
      refine (each _ _ here).bind fun found found' same => ?_
      subst same
      cases found with
      | true => exact .ok rfl
      | false => exact ih

theorem filterAuxM {p : α → Except Fault Bool} {p' : β → Except Fault Bool} {xs : List α} {ys : List β}
    (all : List.Forall₂ S xs ys) (each : ∀ a b, S a b → Alike Eq (p a) (p' b)) :
    ∀ {acc : List α} {acc' : List β}, List.Forall₂ S acc acc' →
      Alike (List.Forall₂ S) (xs.filterAuxM p acc) (ys.filterAuxM p' acc') := by
  induction all with
  | nil => exact fun known => .ok known
  | cons here _ ih =>
      intro acc acc' known
      rw [List.filterAuxM, List.filterAuxM]
      refine (each _ _ here).bind fun keep keep' same => ih ?_
      subst same
      cases keep with
      | false => exact known
      | true => exact .cons here known

/-- The same members are kept of related lists. -/
theorem filterM {p : α → Except Fault Bool} {p' : β → Except Fault Bool} {xs : List α} {ys : List β}
    (all : List.Forall₂ S xs ys) (each : ∀ a b, S a b → Alike Eq (p a) (p' b)) :
    Alike (List.Forall₂ S) (xs.filterM p) (ys.filterM p') :=
  (filterAuxM all each .nil).bind fun _ _ known => .ok (List.rel_reverse known)

end Alike

/-! ## §2. Walks. -/

/-- Both steps go on, in related states and to related places, or both stop with related results. -/
inductive Cursor.Step.Alike {σ σ' ρ ρ' : Type} (R : Cursor → Cursor → Prop) (I : σ → σ' → Prop)
    (P : ρ → ρ' → Prop) (c c' : Cursor) : Step σ ρ → Step σ' ρ' → Prop where
  | move {s : σ} {s' : σ'} {n n' : Nat} (states : I s s') (places : R (c.advance n) (c'.advance n')) :
      Alike R I P c c' (.move s n) (.move s' n')
  | stop {r : ρ} {r' : ρ'} (h : P r r') : Alike R I P c c' (.stop r) (.stop r')

section Walks

variable {σ σ' ρ ρ' : Type} {R : Cursor → Cursor → Prop} {I : σ → σ' → Prop} {P : ρ → ρ' → Prop}
  {step : σ → Cursor → Except Fault (Step σ ρ)} {step' : σ' → Cursor → Except Fault (Step σ' ρ')}
  {finish : σ → Cursor → Except Fault ρ} {finish' : σ' → Cursor → Except Fault ρ'}

/-- **Walks with like steps have like outcomes.** -/
theorem Alike.walk (ends : ∀ c c', R c c' → (c'.ahead = [] ↔ c.ahead = [])) (steady : Steady step)
    (steady' : Steady step')
    (each : ∀ s s' c c', I s s' → R c c' → c.ahead ≠ [] →
      Alike (Step.Alike R I P c c') (step s c) (step' s' c'))
    (last : ∀ s s' c c', I s s' → R c c' → c.ahead = [] → Alike P (finish s c) (finish' s' c'))
    {s : σ} {s' : σ'} {c c' : Cursor} (states : I s s') (places : R c c') :
    Alike P (Cursor.walk step finish s c) (Cursor.walk step' finish' s' c') := by
  -- each step takes some of the text ahead away
  induction size : c.ahead.length using Nat.strongRecOn generalizing s s' c c' with
  | _ size ih =>
      subst size
      by_cases atEnd : c.ahead = []
      · rw [walk_end atEnd, walk_end ((ends c c' places).mpr atEnd)]
        exact last s s' c c' states places atEnd
      · have atEnd' : c'.ahead ≠ [] := fun none => atEnd ((ends c c' places).mp none)
        have both := each s s' c c' states places atEnd
        generalize hs : step s c = decision at both
        generalize hs' : step' s' c' = decision' at both
        cases both with
        | error code =>
            rw [walk_error atEnd hs, walk_error atEnd' hs']
            exact .error code
        | ok decided =>
            cases decided with
            | stop result =>
                rw [walk_stop atEnd hs, walk_stop atEnd' hs']
                exact .ok result
            | @move next next' n n' states' places' =>
                obtain ⟨pos, fits⟩ := steady s c next n atEnd hs
                obtain ⟨pos', fits'⟩ := steady' s' c' next' n' atEnd' hs'
                rw [walk_move hs pos fits, walk_move hs' pos' fits']
                refine ih _ ?_ states' places' rfl
                rw [advance_ahead, List.length_drop]
                omega

end Walks

/-! ## §3. Readers. -/

/-- The two texts are read in lockstep both ways, each place can be passed, and attributes are
kept. -/
structure BothWays (t t' : Text) (R : Cursor → Cursor → Prop) : Prop where
  forth : Lockstep t t' R
  back : Lockstep t' t (flip R)
  attributes : KeepsAttributes R
  onward : ∀ c c', R c c' → ¬ c.Passable → c.lexeme? = .ok none → c.ahead ≠ [] →
    R (c.advance 1) (c'.advance 1)
  onward_flip : ∀ c c', R c c' → ¬ c'.Passable → c'.lexeme? = .ok none → c'.ahead ≠ [] →
    R (c.advance 1) (c'.advance 1)

namespace BothWays

variable {t t' : Text} {R : Cursor → Cursor → Prop} {c c' : Cursor} {keepDocs : Bool}

theorem attributes_flip (B : BothWays t t' R) : KeepsAttributes (flip R) :=
  B.forth.keepsAttributes_flip B.back B.attributes

theorem ahead_eq_nil_iff (B : BothWays t t' R) (h : R c c') : c'.ahead = [] ↔ c.ahead = [] :=
  ⟨B.back.ahead_eq_nil (R := flip R) h, B.forth.ahead_eq_nil h⟩

/-- What is in step and no lexeme leads to related places. -/
theorem next (B : BothWays t t' R) (h : R c c') (both : c.InStep R c') (hl : c.lexeme? = .ok none)
    (more : c.ahead ≠ []) : R (c.advance 1) (c'.advance 1) := by
  by_cases passable : c.Passable
  · exact both.next hl more passable
  · exact B.onward c c' h passable hl more

/-- The places behind a bracket are related. -/
theorem behind_bracket {ch : Char} (B : BothWays t t' R) (h : R c c') (first : c.ahead.head? = some ch)
    (bracket : (closer? ch).isSome = true ∨ isCloser ch = true) : R (c.advance 1) (c'.advance 1) := by
  refine B.next h (B.forth.inStep_of_bracket h first bracket) (lexeme?_of_bracket first bracket) ?_
  intro none
  rw [none] at first
  cases first

theorem endsBy_self (c : Cursor) : c.EndsBy (c.offset + c.ahead.length) :=
  Nat.le_refl _

theorem skipTrivia (B : BothWays t t' R) (h : R c c') :
    Alike R (c.skipTrivia keepDocs) (c'.skipTrivia keepDocs) := by
  refine .of_misread (skipTrivia_within (endsBy_self c)) (skipTrivia_within (endsBy_self c'))
    (fun d hd => ?_) fun d' hd' => ?_
  · obtain ⟨d', trivia, related⟩ := B.forth.trivia h (skipTrivia_ok_iff.mp hd)
    exact ⟨d', skipTrivia_ok_iff.mpr trivia, related⟩
  · obtain ⟨d, trivia, _⟩ := B.back.trivia (R := flip R) h (skipTrivia_ok_iff.mp hd')
    exact ⟨d, skipTrivia_ok_iff.mpr trivia⟩

/-- **A bracket closes in both texts or in neither.** -/
theorem closing (B : BothWays t t' R) (h : R c c') : Alike R c.closing c'.closing :=
  .of_misread (closing_within (endsBy_self c)) (closing_within (endsBy_self c'))
    (fun _ hd => B.forth.closing h hd) fun _ hd' =>
      let ⟨d, hd, _⟩ := B.back.closing (R := flip R) h hd'
      ⟨d, hd⟩

theorem readPrelude (B : BothWays t t' R) (h : R c c') :
    Alike (fun x x' => List.Forall₂ (Attribute.Tracked R) x.1 x'.1 ∧ R x.2 x'.2)
      c.readPrelude c'.readPrelude := by
  refine .of_misread (readPrelude_within (endsBy_self c)) (readPrelude_within (endsBy_self c'))
    (fun x hx => ?_) fun x' hx' => ?_
  · obtain ⟨attrs', head', prelude, related, all⟩ := B.forth.prelude B.attributes h (readPrelude_ok_iff.mp hx)
    exact ⟨(attrs', head'), readPrelude_ok_iff.mpr prelude, all, related⟩
  · obtain ⟨attrs, head, prelude, _⟩ :=
      B.back.prelude (R := flip R) B.attributes_flip h (readPrelude_ok_iff.mp hx')
    exact ⟨(attrs, head), readPrelude_ok_iff.mpr prelude⟩

theorem readVisibility (B : BothWays t t' R) (h : R c c') :
    Alike (fun x x' => R x.2 x'.2) c.readVisibility c'.readVisibility := by
  refine .of_misread (readVisibility_within (endsBy_self c)) (readVisibility_within (endsBy_self c'))
    (fun x hx => ?_) fun x' hx' => ?_
  · obtain ⟨d', visibility, related⟩ := B.forth.visibility h (readVisibility_ok_iff.mp hx)
    exact ⟨(x.1, d'), readVisibility_ok_iff.mpr visibility, related⟩
  · obtain ⟨d, visibility, _⟩ := B.back.visibility (R := flip R) h (readVisibility_ok_iff.mp hx')
    exact ⟨(x'.1, d), readVisibility_ok_iff.mpr visibility⟩

/-- Reading a lexeme fails in both texts or in neither. -/
theorem lexeme?_error {fault : Fault} (B : BothWays t t' R) (h : R c c') (hl : c.lexeme? = .error fault) :
    ∃ fault', c'.lexeme? = .error fault' ∧ fault'.cause.code = fault.cause.code := by
  have misread := lexeme?_within (endsBy_self c)
  have misread' := lexeme?_within (endsBy_self c')
  rw [hl] at misread
  cases hl' : c'.lexeme? with
  | error fault' =>
      rw [hl'] at misread'
      exact ⟨fault', rfl, misread'.2.trans misread.2.symm⟩
  | ok r =>
      exfalso
      -- what the second text has there is read in the first one, by the lockstep back
      have there : ∃ r, c.lexeme? = .ok r := by
        rcases B.back.inStep (R := flip R) h with both | ⟨_, _, _, skip, _⟩
        · cases r with
          | none => exact ⟨none, both.noLexeme hl'⟩
          | some n =>
              obtain ⟨n', here, _⟩ := both.lexeme n hl'
              exact ⟨some n', here⟩
        · obtain ⟨length?, here, _⟩ := exists_lexeme?_of_trivium skip
          exact ⟨length?, here⟩
      obtain ⟨r, there⟩ := there
      rw [hl] at there
      cases there

end BothWays

/-! ## §4. Pieces. -/

/-- A comma or a closing bracket stands at these offsets, which are those of related places. -/
def Bounds (R : Cursor → Cursor → Prop) (i i' : Nat) : Prop :=
  ∃ c c' ch, R c c' ∧ c.offset = i ∧ c'.offset = i' ∧ c.ahead.head? = some ch ∧ c'.ahead.head? = some ch
    ∧ (ch = ',' ∨ isCloser ch = true)

/-- The pieces start at related places and end at a comma or closing bracket. -/
structure Piece.Tracked (R : Cursor → Cursor → Prop) (p p' : Piece) : Prop where
  start : R p.start p'.start
  stop : Bounds R p.stop p'.stop

/-- The cuttings have found pieces that are related, and are equally deep in brackets. -/
structure Cutting.Tracked (R : Cursor → Cursor → Prop) (s s' : Cutting) : Prop where
  found : List.Forall₂ (Piece.Tracked R) s.found s'.found
  start : R s.start s'.start
  depth : s'.depth = s.depth
  angle : s'.angle = s.angle

theorem Cutting.read_blank {s : Cutting} {place : Cursor} {ch : Char} (blank : isBlank ch = true) :
    s.read place ch = s :=
  @Cutting.over_of_blank [(place, ch)] (fun x mem => by
    rw [List.mem_singleton.mp mem]
    exact blank) s

/-- What stands in front of a `>` is an arrow's dash or equals sign in both texts or in neither. -/
def KeepsArrows (R : Cursor → Cursor → Prop) : Prop :=
  ∀ ⦃c c' : Cursor⦄, R c c' → c.ahead ≠ [] →
    c'.before.any (fun b => b == '-' || b == '=') = c.before.any (fun b => b == '-' || b == '=')

namespace BothWays

variable {t t' : Text} {R : Cursor → Cursor → Prop} {c c' : Cursor} {i i' : Nat}

theorem le_iff_of_bounds (B : BothWays t t' R) (h : R c c') (bounds : Bounds R i i') :
    i' ≤ c'.offset ↔ i ≤ c.offset := by
  obtain ⟨x, x', _, related, rfl, rfl, _⟩ := bounds
  exact (B.forth.le_iff related h).symm

/-- A character is read by both cuttings in the same way. -/
theorem cutting_read {s s' : Cutting} {ch : Char} (A : KeepsArrows R) (h : R c c')
    (next : R (c.advance 1) (c'.advance 1)) (first : c.ahead.head? = some ch)
    (first' : c'.ahead.head? = some ch) (tracked : s.Tracked R s') :
    (s.read c ch).Tracked R (s'.read c' ch) := by
  obtain ⟨found, start, depth, angle⟩ := tracked
  have arrow := A h (by
    intro none
    rw [none] at first
    cases first)
  unfold Cutting.read
  rw [depth, angle, arrow]
  split
  · exact ⟨found, start, rfl, rfl⟩
  split
  · exact ⟨found, start, rfl, rfl⟩
  split
  · exact ⟨found, start, depth, angle⟩
  split
  · exact ⟨found, start, rfl, rfl⟩
  split
  · exact ⟨found, start, rfl, rfl⟩
  split
  next comma =>
    rw [Bool.and_eq_true, decide_eq_true_iff] at comma
    refine ⟨.cons ⟨start, c, c', ch, h, rfl, rfl, first, first', .inl comma.1⟩ found, next, rfl, rfl⟩
  next => exact ⟨found, start, depth, angle⟩

/-- **What a bracket encloses** starts and ends at related places. -/
theorem enclosed (B : BothWays t t' R) (h : R c c') :
    Alike (fun d d' => R (c.advance 1) (c'.advance 1) ∧ Bounds R d.offset d'.offset
      ∧ R (d.advance 1) (d'.advance 1)) c.closing c'.closing := by
  have both := B.closing h
  generalize hd : c.closing = x at both
  generalize hd' : c'.closing = x' at both
  cases both with
  | error code => exact .error code
  | @ok d d' related =>
      obtain ⟨_, encloses⟩ := closing_ok_iff.mp hd
      obtain ⟨opener, closer, first, pair, last⟩ := encloses.closes
      have closes := (isCloser_of_closer? pair).1
      have last' := (B.forth.inStep_of_bracket related last (.inr closes)).head.trans last
      exact .ok ⟨B.behind_bracket h first (.inl (by rw [pair]; rfl)),
        ⟨d, d', closer, related, rfl, rfl, last, last', .inr closes⟩,
        B.behind_bracket related last (.inr closes)⟩

theorem cutting_pieces {s s' : Cutting} (tracked : s.Tracked R s') (bounds : Bounds R i i') :
    List.Forall₂ (Piece.Tracked R) (s.pieces i) (s'.pieces i') :=
  List.rel_reverse (.cons ⟨tracked.start, bounds⟩ tracked.found)

/-- Where trivia stand a cutting goes on behind them as it is. -/
theorem allPieces_step_trivium {stop n : Nat} {s : Cutting} {keepDocs : Bool} (before : c.offset < stop)
    (ht : c.trivium? keepDocs = .ok (some n)) : allPieces.step stop s c = .ok (.move s n) := by
  rcases lexeme?_of_trivium ht with hl | ⟨hl, rfl, ch, first, blank⟩
  · exact allPieces_step_lexeme before hl
  · rw [allPieces_step_char before hl first, Cutting.read_blank blank]

/-- **A step of the cutting is taken in both texts.** -/
theorem allPieces_step {s s' : Cutting} (B : BothWays t t' R) (A : KeepsArrows R) (h : R c c')
    (bounds : Bounds R i i') (tracked : s.Tracked R s') (more : c.ahead ≠ []) :
    Alike (Step.Alike R (Cutting.Tracked R) (List.Forall₂ (Piece.Tracked R)) c c')
      (allPieces.step i s c) (allPieces.step i' s' c') := by
  have same := B.le_iff_of_bounds h bounds
  rcases Nat.lt_or_ge c.offset i with before | behind
  swap
  · rw [allPieces.step, if_pos behind, allPieces.step, if_pos (same.mpr behind)]
    exact .ok (.stop (cutting_pieces tracked bounds))
  have before' : c'.offset < i' := by omega
  rcases B.forth.inStep h with both | ⟨n, n', skip, skip', there⟩
  swap
  · -- a blank changes the cutting as little as a comment does
    rw [allPieces_step_trivium before skip, allPieces_step_trivium before' skip']
    exact .ok (.move tracked there)
  obtain ⟨ch, rest, eq⟩ := List.exists_cons_of_ne_nil more
  have first : c.ahead.head? = some ch := by rw [eq, List.head?_cons]
  cases hl : c.lexeme? with
  | error fault =>
      obtain ⟨fault', hl', code⟩ := B.lexeme?_error h hl
      rw [allPieces.step, if_neg (by omega), hl, allPieces.step, if_neg (by omega), hl']
      exact .error code
  | ok length? =>
      cases length? with
      | some n =>
          obtain ⟨n', hl', there⟩ := both.lexeme n hl
          rw [allPieces_step_lexeme before hl, allPieces_step_lexeme before' hl']
          exact .ok (.move tracked there)
      | none =>
          have first' := both.head.trans first
          have there := B.next h both hl more
          rw [allPieces_step_char before hl first, allPieces_step_char before' (both.noLexeme hl) first']
          exact .ok (.move (cutting_read A h there first first' tracked) there)

theorem allPieces (B : BothWays t t' R) (A : KeepsArrows R) (h : R c c') (bounds : Bounds R i i') :
    Alike (List.Forall₂ (Piece.Tracked R)) (c.allPieces i) (c'.allPieces i') :=
  .walk (fun _ _ => B.ahead_eq_nil_iff) (allPieces_step_steady i) (allPieces_step_steady i')
    (fun _ _ _ _ tracked related more => B.allPieces_step A related bounds tracked more)
    (fun _ _ _ _ tracked _ _ => .ok (cutting_pieces tracked bounds)) ⟨.nil, h, rfl, rfl⟩ h

theorem isFilled {p p' : Piece} (B : BothWays t t' R) (tracked : p.Tracked R p') :
    Alike Eq p.isFilled p'.isFilled := by
  refine (B.skipTrivia tracked.start).bind fun d d' related => .ok ?_
  have same := B.le_iff_of_bounds related tracked.stop
  rw [decide_eq_decide]
  omega

/-- **Lists are cut into the same pieces.** -/
theorem pieces (B : BothWays t t' R) (A : KeepsArrows R) (h : R c c') (bounds : Bounds R i i') :
    Alike (List.Forall₂ (Piece.Tracked R)) (c.pieces i) (c'.pieces i') :=
  (B.allPieces A h bounds).bind fun _ _ all => .filterM all fun _ _ => B.isFilled

end BothWays

end EnumExtract
