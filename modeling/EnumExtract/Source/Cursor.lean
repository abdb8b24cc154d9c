/-
  EnumExtract.Source.Cursor
  ────────────────────────────────
  A cursor is a place in a text: the character before it, its offset, and the
  text ahead.  Everything that reads a source starts at a cursor and says how
  far it got.

  `walk` is the one loop of the readers.  Its step looks at the text ahead and
  either stops with a result or moves on by some characters with a new state;
  at the end of the text a closing function has the last word.  The recursion
  is on the text ahead: characters that a step has claimed are passed over
  one by one.
-/
import EnumExtract.Fault

namespace EnumExtract

/-! ## §1. Cursors. -/

/-- A place in a text. -/
structure Cursor where
  /-- The character just before the place, if there is one. -/
  before : Option Char
  /-- The number of characters before the place. -/
  offset : Nat
  /-- The text from the place on. -/
  ahead : Text
  deriving Repr, DecidableEq

/-- The cursor at an offset of a text. -/
def Text.cursor (t : Text) (offset : Nat) : Cursor :=
  ⟨if offset = 0 then none else t[offset - 1]?, offset, t.drop offset⟩

namespace Cursor

/-- The cursor `count` characters further on. -/
def advance (c : Cursor) (count : Nat) : Cursor :=
  ⟨if count = 0 then c.before else c.ahead[count - 1]?, c.offset + count, c.ahead.drop count⟩

/-- The text ahead up to, not including, offset `stop`. -/
def upTo (c : Cursor) (stop : Nat) : Text :=
  c.ahead.take (stop - c.offset)

/-- The text ahead begins with `word`. -/
def sees (c : Cursor) (word : Text) : Bool :=
  Text.startsWith c.ahead word

/-- Failure at the cursor. -/
def fail {α : Type} (c : Cursor) (cause : Cause) : Except Fault α :=
  .error ⟨cause, c.offset, none⟩

@[simp] theorem advance_zero (c : Cursor) : c.advance 0 = c := by
  simp [advance]

theorem advance_advance (c : Cursor) (j k : Nat) :
    (c.advance j).advance k = c.advance (j + k) := by
  cases k with
  | zero => simp
  | succ k => simp [advance, List.getElem?_drop, Nat.add_assoc]

/-- Moving a cursor of a text gives the cursor at the later offset of that text. -/
theorem advance_cursor (t : Text) (i k : Nat) :
    (t.cursor i).advance k = t.cursor (i + k) := by
  cases k with
  | zero => simp
  | succ k => simp [advance, Text.cursor, List.getElem?_drop]

/-! ## §2. Walking. -/

/-- What a step of a walk decides. -/
inductive Step (σ ρ : Type) where
  /-- Go on `length` characters further, at least one, with the new state. -/
  | move (state : σ) (length : Nat)
  /-- The walk ends with this result. -/
  | stop (result : ρ)

/-- Walk through the text ahead: `step` decides at every cursor that is reached,
and `finish` answers at the end of the text. -/
def walk {σ ρ : Type} (step : σ → Cursor → Except Fault (Step σ ρ))
    (finish : σ → Cursor → Except Fault ρ) (state : σ) (c : Cursor) : Except Fault ρ :=
  go 0 state c.before c.offset c.ahead
where
  /-- `claimed` characters are still to be passed over. -/
  go (claimed : Nat) (state : σ) (before : Option Char) (offset : Nat) :
      Text → Except Fault ρ
    | [] => finish state ⟨before, offset, []⟩
    | ch :: rest =>
        match claimed with
        | k + 1 => go k state (some ch) (offset + 1) rest
        | 0 =>
            match step state ⟨before, offset, ch :: rest⟩ with
            | .error fault => .error fault
            | .ok (.stop result) => .ok result
            | .ok (.move next length) => go (length - 1) next (some ch) (offset + 1) rest

section Laws

variable {σ ρ : Type} {step : σ → Cursor → Except Fault (Step σ ρ)}
  {finish : σ → Cursor → Except Fault ρ}

/-- Passing over claimed characters is walking on from behind them. -/
theorem walk_go_claimed (claimed : Nat) (state : σ) (before : Option Char) (offset : Nat)
    (t : Text) (h : claimed ≤ t.length) :
    walk.go step finish claimed state before offset t
      = walk step finish state ((Cursor.mk before offset t).advance claimed) := by
  induction claimed generalizing before offset t with
  | zero => simp [walk]
  | succ k ih =>
      cases t with
      | nil => simp at h
      | cons ch rest =>
          have first : (Cursor.mk before offset (ch :: rest)).advance 1
              = Cursor.mk (some ch) (offset + 1) rest := by
            simp [advance]
          rw [walk.go, ih (some ch) (offset + 1) rest (by simpa using h), ← first,
            advance_advance, Nat.add_comm 1 k]

theorem walk_end {state : σ} {c : Cursor} (h : c.ahead = []) :
    walk step finish state c = finish state c := by
  obtain ⟨before, offset, ahead⟩ := c
  subst h
  rfl

theorem walk_stop {state : σ} {c : Cursor} {result : ρ} (h : c.ahead ≠ [])
    (hs : step state c = .ok (.stop result)) :
    walk step finish state c = .ok result := by
  obtain ⟨before, offset, ahead⟩ := c
  cases ahead with
  | nil => exact absurd rfl h
  | cons ch rest => simp [walk, walk.go, hs]

theorem walk_error {state : σ} {c : Cursor} {fault : Fault} (h : c.ahead ≠ [])
    (hs : step state c = .error fault) :
    walk step finish state c = .error fault := by
  obtain ⟨before, offset, ahead⟩ := c
  cases ahead with
  | nil => exact absurd rfl h
  | cons ch rest => simp [walk, walk.go, hs]

theorem walk_move {state next : σ} {c : Cursor} {length : Nat}
    (hs : step state c = .ok (.move next length)) (pos : 0 < length)
    (h : length ≤ c.ahead.length) :
    walk step finish state c = walk step finish next (c.advance length) := by
  obtain ⟨before, offset, ahead⟩ := c
  cases ahead with
  | nil => simp at h; omega
  | cons ch rest =>
      have first : (Cursor.mk before offset (ch :: rest)).advance 1
          = Cursor.mk (some ch) (offset + 1) rest := by
        simp [advance]
      have fits : length - 1 ≤ rest.length := by
        simp at h; omega
      rw [walk, walk.go]
      simp only [hs]
      rw [walk_go_claimed _ _ _ _ _ fits, ← first, advance_advance]
      congr 2
      omega

end Laws

/-! ## §3. Runs of pieces. -/

/-- How far pieces that follow one another without a gap reach from the start
of a text; `piece?` measures the piece at the front, if one is there. -/
def runLength (piece? : Text → Option Nat) (t : Text) : Nat :=
  go 0 t
where
  /-- `claimed` characters belong to a piece already found. -/
  go (claimed : Nat) : Text → Nat
    | [] => 0
    | ch :: rest =>
        match claimed with
        | k + 1 => go k rest + 1
        | 0 =>
            match piece? (ch :: rest) with
            | some (k + 1) => go k rest + 1
            | _ => 0

end Cursor

end EnumExtract
