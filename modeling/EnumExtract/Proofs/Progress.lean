/-
  EnumExtract.Proofs.Progress
  ────────────────────────────────
  The readers go forward, stay inside the text, and end.

  `Cursor.walk` ends on every text because it is a recursion on the text.  It
  would end for any step: one that moves by nothing is taken to move by one
  character, and one that moves too far is cut off at the end.  `Cursor.loop`
  is the plain loop, which allows for neither:

      while the place is before offset `stop`:
          take the step there; end as it says, or go on where it says

  It has no outcome when its rounds do not suffice, when a step would be taken
  behind the last character, or when a step leads past the end of the text.
  That the two agree for a reader is what makes the reader end.

  Main results:
    • `loop_eq_walk`            the loop of a steady step ends like the walk, after
                                at most one round for each character,
    • `Text.loops_end`          so do the loops of all readers, on every text,
    • `Text.readers_progress`   and each reader gets further on in the text.
-/
import EnumExtract.Proofs.Coverage
import EnumExtract.Proofs.Scan

namespace EnumExtract

open Cursor

namespace Cursor

/-! ## §1. Loops. -/

section Loop

variable {σ ρ : Type} (step : σ → Cursor → Except Fault (Step σ ρ))
  (finish : σ → Cursor → Except Fault ρ) (stop : Nat)

/-- What the loop of a walk up to offset `stop` comes to within some rounds, if it ends and stays in
the text. -/
def loop : Nat → σ → Cursor → Option (Except Fault ρ)
  | 0, s, c => if stop ≤ c.offset then some (finish s c) else none
  | rounds + 1, s, c =>
      if stop ≤ c.offset then some (finish s c)
      else if c.ahead.isEmpty then none
      else
        match step s c with
        | .error fault => some (.error fault)
        | .ok (.stop result) => some (.ok result)
        | .ok (.move next n) =>
            if n ≤ c.ahead.length then loop rounds next (c.advance n) else none

variable {step finish stop} {s : σ} {c : Cursor} {rounds : Nat}

/-- **The loop of a steady step ends like the walk**, if the text goes up to offset `stop` and the walk
has nothing left to do from there on. -/
theorem loop_eq_walk (steady : Steady step) (fits : stop ≤ c.offset + c.ahead.length)
    (last : ∀ s d, c.LeadsTo d → stop ≤ d.offset → walk step finish s d = finish s d)
    (enough : stop ≤ c.offset + rounds) :
    loop step finish stop rounds s c = some (walk step finish s c) := by
  induction rounds generalizing s c with
  | zero =>
      have past : stop ≤ c.offset := enough
      rw [loop, if_pos past, last s c (.refl c) past]
  | succ rounds ih =>
      rw [loop]
      split
      next past => rw [last s c (.refl c) past]
      next before =>
        have more : c.ahead ≠ [] := List.length_pos_iff.mp (by omega)
        rw [if_neg (by simpa using more)]
        cases decided : step s c with
        | error fault => rw [walk_error more decided]
        | ok decision =>
            cases decision with
            | stop result => rw [walk_stop more decided]
            | move next n =>
                -- a step takes at least one of the characters that are left, and so one round
                obtain ⟨pos, inside⟩ := steady s c next n more decided
                have onward : c.LeadsTo (c.advance n) := leadsTo_advance inside
                have total := onward.end_eq
                simp only
                rw [if_pos inside, walk_move decided pos inside]
                refine ih (by omega) (fun s d further => last s d (onward.trans further)) ?_
                rw [advance_offset]
                omega

theorem cursor_end (t : Text) (i : Nat) :
    (t.cursor i).offset + (t.cursor i).ahead.length = i + (t.length - i) := by
  show i + (t.drop i).length = _
  rw [List.length_drop]

/-- A loop from offset `i` of a text to its end. -/
theorem loop_cursor (steady : Steady step) (t : Text) (i : Nat) :
    loop step finish t.length (t.length - i) s (t.cursor i) = some (walk step finish s (t.cursor i)) := by
  have size := cursor_end t i
  refine loop_eq_walk steady (by omega) (fun s d onward past => walk_end ?_) (by show _ ≤ i + _; omega)
  have total := onward.end_eq
  have forward : i ≤ d.offset := onward.offset_le
  exact List.length_eq_zero_iff.mp (by omega)

variable {result : σ → ρ} (settled : ∀ s d, stop ≤ d.offset → step s d = .ok (.stop (result s)))
  (finished : ∀ s d, finish s d = .ok (result s))
include settled finished

theorem walk_past (past : stop ≤ c.offset) : walk step finish s c = .ok (result s) := by
  by_cases atEnd : c.ahead = []
  · rw [walk_end atEnd, finished]
  · exact walk_stop atEnd (settled s c past)

/-- A loop from offset `i` of a text up to one at which its step ends it, too. -/
theorem loop_cursor_upTo (steady : Steady step) {t : Text} (fits : stop ≤ t.length) (i : Nat) :
    loop step finish stop (stop - i) s (t.cursor i) = some (walk step finish s (t.cursor i)) := by
  have size := cursor_end t i
  refine loop_eq_walk steady (by omega) (fun s d _ past => ?_) (by show _ ≤ i + _; omega)
  rw [finished, walk_past settled finished past]

end Loop

/-! ## §2. The loops of the readers. -/

theorem allPieces_step_past (stop : Nat) (s : Cutting) (c : Cursor) (past : stop ≤ c.offset) :
    allPieces.step stop s c = .ok (.stop (s.pieces stop)) := by
  rw [allPieces.step, if_pos past]
  rfl

theorem withoutComments_step_past (start : Cursor) (stop : Nat) (texts : List Text) (c : Cursor)
    (past : stop ≤ c.offset) :
    Piece.withoutComments.step ⟨start, stop⟩ texts c = .ok (.stop texts.reverse.flatten) := by
  unfold Piece.withoutComments.step
  rw [if_pos past]
  rfl

theorem withoutComments_step_steady (p : Piece) : Steady (Piece.withoutComments.step p) := by
  intro texts c texts' n more h
  unfold Piece.withoutComments.step at h
  split at h
  next => cases h
  next =>
    obtain ⟨comment?, hc, h⟩ := bind_ok_iff.mp h
    cases comment? with
    | some length =>
        cases h
        exact comment?_bounds hc
    | none =>
        obtain ⟨literal?, hl, h⟩ := bind_ok_iff.mp h
        cases h
        cases literal? with
        | some length => exact literal?_bounds hl
        | none => exact ⟨Nat.one_pos, List.length_pos_iff.mpr more⟩

/-- Trivia in front of a prelude makes no difference to it. -/
theorem readPrelude_of_trivia {c place : Cursor} (h : Trivia true c place) :
    c.readPrelude = place.readPrelude := by
  unfold readPrelude
  generalize ([] : List Attribute) = attrs
  induction h with
  | stop => rfl
  | pass ht _ ih =>
      have bounds := trivium?_bounds ht
      rw [walk_move (preludeStep_ok_iff.mpr (.inl ⟨_, ht, rfl⟩)) bounds.1 bounds.2, ih]

/-- Behind trivia a prelude goes on only by an attribute, and goes on behind that. -/
theorem preludeStep_forward {c place : Cursor} {attrs attrs' : List Attribute} {n : Nat}
    (toPlace : Trivia true c place) (h : preludeStep attrs place = .ok (.move attrs' n)) :
    ∃ a, attrs' = a :: attrs ∧ a.stop = place.offset + n ∧ 0 < n ∧ n ≤ place.ahead.length := by
  rcases preludeStep_ok_iff.mp h with ⟨k, ht, _⟩ | ⟨_, ⟨a, doc, eq⟩ | ⟨_, sees, a, read, eq⟩ | ⟨_, _, eq⟩⟩
  · rw [toPlace.ends] at ht
    cases ht
  · cases eq
    have bounds := doc.bounds
    have start := doc.start
    exact ⟨a, rfl, by omega, bounds⟩
  · cases eq
    have bounds := readAttribute_bounds sees read
    obtain ⟨_, _, _, parts⟩ := readAttribute_ok_iff.mp read
    have start := parts.start
    exact ⟨a, rfl, by omega, bounds⟩
  · cases eq

end Cursor

namespace Text

/-- Every loop of the readers comes to its end in the text, after at most one round for each character,
and what it comes to is what the reader gives. -/
structure LoopsEnd (t : Text) : Prop where
  trivia : ∀ keepDocs i,
    loop (skipTrivia.step keepDocs) (fun _ place => .ok place) t.length (t.length - i) () (t.cursor i)
      = some ((t.cursor i).skipTrivia keepDocs)
  /-- Where no bracket opens, the search for the one that closes it does not begin. -/
  closing : ∀ i, (t.cursor i).closing = .error ⟨.expectedBracket t[i]?, i, none⟩
    ∨ ∃ opener, t[i]? = some opener
      ∧ loop bracketStep (fun _ _ => (t.cursor i).fail (.unclosed opener)) t.length (t.length - i) []
          (t.cursor i) = some (t.cursor i).closing
  prelude : ∀ i,
    loop preludeStep (fun attrs place => .ok (attrs.reverse, place)) t.length (t.length - i) []
      (t.cursor i) = some (t.cursor i).readPrelude
  items : loop scanStep (fun s _ => .ok s.items.reverse) t.length t.length ⟨[], []⟩ (t.cursor 0)
    = some t.items
  /-- Which pieces are filled is found out by trivia from places of the text on. -/
  pieces : ∀ i stop, stop ≤ t.length → ∃ all,
    loop (allPieces.step stop) (fun s _ => .ok (s.pieces stop)) stop (stop - i)
        ⟨[], t.cursor i, 0, 0⟩ (t.cursor i) = some all
      ∧ (t.cursor i).pieces stop = (do (← all).filterM (·.isFilled))
      ∧ ∀ ps, all = .ok ps → ∀ p ∈ ps, ∃ j, p.start = t.cursor j
  withoutComments : ∀ i stop, stop ≤ t.length →
    loop (Piece.withoutComments.step ⟨t.cursor i, stop⟩) (fun texts _ => .ok texts.reverse.flatten)
        stop (stop - i) [] (t.cursor i)
      = some (Piece.mk (t.cursor i) stop).withoutComments

/-- **The loops of the readers end on every text.** -/
theorem loops_end (t : Text) : t.LoopsEnd where
  trivia _ i := loop_cursor skipTrivia_step_steady t i
  closing i := by
    rw [← head?_cursor]
    cases eq : (t.cursor i).ahead with
    | nil =>
        left
        rw [closing, eq]
        rfl
    | cons opener rest =>
        cases opens : closer? opener with
        | none =>
            left
            rw [closing, eq]
            simp only [opens, Option.isNone_none, if_true]
            rfl
        | some closer =>
            refine .inr ⟨opener, rfl, ?_⟩
            rw [loop_cursor bracketStep_steady, closing, eq]
            simp only [opens, Option.isNone_some, Bool.false_eq_true, if_false]
  prelude i := loop_cursor preludeStep_steady t i
  items := loop_cursor scanStep_steady t 0
  pieces i stop fits := by
    have past := allPieces_step_past stop
    refine ⟨(t.cursor i).allPieces stop, ?_, rfl, fun ps cut p mem => ?_⟩
    · exact loop_cursor_upTo past (fun _ _ => rfl) (allPieces_step_steady stop) fits i
    · rcases Nat.le_total i stop with before | behind
      · have onward := ((allPieces_cover (c := t.cursor i) before cut).2.1 p mem).level.leadsTo
        have inText := (leadsTo_cursor (Nat.le_trans before fits)).trans onward
        exact ⟨p.start.offset, cursor_of_leadsTo inText⟩
      · rw [allPieces, walk_past past (fun _ _ => rfl) behind] at cut
        cases cut
        obtain rfl := List.mem_singleton.mp mem
        exact ⟨i, rfl⟩
  withoutComments i stop fits :=
    loop_cursor_upTo (withoutComments_step_past _ stop) (fun _ _ => rfl)
      (withoutComments_step_steady _) fits i

/-- **The readers go forward, stay inside the text, and end.**  A comment or literal ends behind its start
and within the text; so does each round through a prelude, which passes over trivia and reads one
attribute, and so does the head of a declaration, whether there is one or not.  All loops come to
their ends. -/
theorem readers_progress (t : Text) :
    (∀ i, i < t.length →
        (∃ fault, (t.cursor i).lexeme? = .error fault) ∨ (t.cursor i).lexeme? = .ok none
          ∨ ∃ j, (t.cursor i).lexeme? = .ok (some (j - i)) ∧ i < j ∧ j ≤ t.length)
      ∧ (∀ i place, (t.cursor i).skipTrivia true = .ok place →
          (t.cursor i).readPrelude = place.readPrelude
            ∧ ∀ attrs attrs' n, preludeStep attrs place = .ok (.move attrs' n) →
                ∃ a, attrs' = a :: attrs ∧ a.stop = place.offset + n ∧ i < a.stop ∧ a.stop ≤ t.length)
      ∧ (∀ i module item? next, i < t.length → (t.cursor i).readItem module = .ok (item?, next) →
          i < next.offset ∧ next.offset ≤ t.length)
      ∧ t.LoopsEnd := by
  refine ⟨fun i lt => ?_, fun i place toPlace => ?_, fun i module item? next lt read => ?_, loops_end t⟩
  · cases found : (t.cursor i).lexeme? with
    | error fault => exact .inl ⟨fault, rfl⟩
    | ok length? =>
        cases length? with
        | none => exact .inr (.inl rfl)
        | some n =>
            have bounds := lexeme?_bounds found
            have size := cursor_end t i
            have start : (t.cursor i).offset = i := rfl
            refine .inr (.inr ⟨i + n, ?_, by omega, by omega⟩)
            rw [Nat.add_sub_cancel_left]
  · rw [skipTrivia_ok_iff] at toPlace
    refine ⟨readPrelude_of_trivia toPlace, fun attrs attrs' n moves => ?_⟩
    obtain ⟨a, more, stop, pos, fits⟩ := preludeStep_forward toPlace moves
    have onward : i ≤ place.offset := toPlace.leadsTo.offset_le
    have total := toPlace.leadsTo.end_eq
    have size := cursor_end t i
    exact ⟨a, more, stop, by omega, by omega⟩
  · have more : (t.cursor i).ahead ≠ [] := by
      have size := cursor_end t i
      have start : (t.cursor i).offset = i := rfl
      exact List.length_pos_iff.mp (by omega)
    obtain ⟨onward, forward⟩ := (readItem_ok_iff.mp read).leadsTo more
    exact ⟨forward, offset_le_length ((leadsTo_cursor (Nat.le_of_lt lt)).trans onward)⟩

/-- A declaration whose text ends in a string. -/
def cutOff : Text :=
  "#[x] /// d\nenum E (\""

/-- The text is scanned up to the string, which is a fault. -/
theorem readers_progress_cutOff :
    (∃ j, (cutOff.cursor 5).lexeme? = .ok (some (j - 5)) ∧ 5 < j ∧ j ≤ 20)
      ∧ (∃ a, preludeStep [] (cutOff.cursor 5) = .ok (.move [a] 5) ∧ 4 < a.stop ∧ a.stop ≤ 20)
      ∧ (∃ item next, (cutOff.cursor 0).readItem [] = .ok (some item, next)
          ∧ 0 < next.offset ∧ next.offset ≤ 20)
      ∧ loop scanStep (fun s _ => .ok s.items.reverse) 20 20 ⟨[], []⟩ (cutOff.cursor 0)
          = some (.error ⟨.unterminatedString, 19, none⟩)
      ∧ loop (Piece.withoutComments.step ⟨cutOff.cursor 4, 11⟩)
          (fun texts _ => .ok texts.reverse.flatten) 11 7 [] (cutOff.cursor 4) = some (.ok "  ") := by
  obtain ⟨lexemes, preludes, items, loops⟩ := readers_progress cutOff
  have comment : (cutOff.cursor 5).lexeme? = .ok (some 6) := rfl
  have doc : preludeStep [] (cutOff.cursor 5) = .ok (.move [⟨"doc", "/// d", 5, 10, none⟩] 5) := rfl
  have head : ∃ read, (cutOff.cursor 0).readItem [] = .ok read ∧ read.1.isSome = true :=
    exists_ok_of_decide (by decide +kernel)
  have scanned : cutOff.items = .error ⟨.unterminatedString, 19, none⟩ := by decide +kernel
  have stripped : (Piece.mk (cutOff.cursor 4) 11).withoutComments = .ok "  " := by decide +kernel
  refine ⟨?_, ?_, ?_, ?_, ?_⟩
  · rcases lexemes 5 (by decide) with ⟨fault, fails⟩ | none | found
    · cases comment.symm.trans fails
    · cases comment.symm.trans none
    · exact found
  · obtain ⟨a, same, _, bounds⟩ := (preludes 4 (cutOff.cursor 5) rfl).2 _ _ _ doc
    exact ⟨a, same ▸ doc, bounds⟩
  · obtain ⟨⟨item?, next⟩, read, isSome⟩ := head
    obtain ⟨item, rfl⟩ := Option.isSome_iff_exists.mp isSome
    exact ⟨item, next, read, items 0 [] _ next (by decide) read⟩
  · rw [← scanned]
    exact loops.items
  · rw [← stripped]
    exact loops.withoutComments 4 11 (by decide)

end Text

end EnumExtract
