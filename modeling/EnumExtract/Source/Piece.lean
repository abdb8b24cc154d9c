/-
  EnumExtract.Source.Piece
  ────────────────────────────────
  Pieces: the parts of a list between its top-level commas.

  A comma counts when it is outside every bracket and, at bracket depth zero,
  outside every `<`…`>`.  The `>` of `->` and `=>` closes no angle bracket, and one
  that closes nothing is passed over.  Pieces of nothing but trivia are
  dropped, so a list may end in a comma.
-/
import EnumExtract.Source.Bracket
import EnumExtract.Source.Trivia

namespace EnumExtract

/-- A part of a source: from a cursor up to, not including, offset `stop`. -/
structure Piece where
  start : Cursor
  stop : Nat
  deriving Repr, DecidableEq

namespace Piece

/-- The text of the piece. -/
def text (p : Piece) : Text :=
  p.start.upTo p.stop

/-- Something other than trivia begins before the piece ends. -/
def isFilled (p : Piece) : Except Fault Bool := do
  return (← p.start.skipTrivia).offset < p.stop

/-- The text of the piece with every comment replaced by one space.  A comment or literal
that reaches past the end of the piece is cut off there. -/
def withoutComments (p : Piece) : Except Fault Text :=
  Cursor.walk step (fun texts _ => .ok texts.reverse.flatten) [] p.start
where
  step (texts : List Text) (place : Cursor) : Except Fault (Cursor.Step (List Text) Text) := do
    if p.stop ≤ place.offset then return .stop texts.reverse.flatten
    match ← place.comment? with
    | some length => return .move ([' '] :: texts) length
    | none =>
        let length := (← place.literal?).getD 1
        return .move (place.upTo (min (place.offset + length) p.stop) :: texts) length

end Piece

/-- The state of cutting a list into pieces: the pieces found, the latest first, where the
piece at hand starts, and how deep in brackets and in angle brackets the place is. -/
structure Cutting where
  found : List Piece
  start : Cursor
  depth : Int
  angle : Nat

namespace Cutting

/-- The pieces in order, the one at hand going up to `stop`. -/
def pieces (s : Cutting) (stop : Nat) : List Piece :=
  (⟨s.start, stop⟩ :: s.found).reverse

/-- The state after the character `ch` at `place`. -/
def read (s : Cutting) (place : Cursor) (ch : Char) : Cutting :=
  if (closer? ch).isSome then { s with depth := s.depth + 1 }
  else if isCloser ch then { s with depth := s.depth - 1 }
  else if s.depth ≠ 0 then s
  else if ch = '<' then { s with angle := s.angle + 1 }
  else if ch = '>' && !place.before.any (fun b => b == '-' || b == '=') then
    { s with angle := s.angle - 1 }
  else if ch = ',' && s.angle = 0 then
    { s with found := ⟨s.start, place.offset⟩ :: s.found, start := place.advance 1 }
  else s

end Cutting

namespace Cursor

/-- All pieces between the cursor and offset `stop`, those of nothing but trivia included. -/
def allPieces (c : Cursor) (stop : Nat) : Except Fault (List Piece) :=
  walk step (fun s _ => .ok (s.pieces stop)) ⟨[], c, 0, 0⟩ c
where
  step (s : Cutting) (place : Cursor) : Except Fault (Step Cutting (List Piece)) := do
    if stop ≤ place.offset then return .stop (s.pieces stop)
    match place.ahead, ← place.lexeme? with
    | _, some length => return .move s length
    | ch :: _, none => return .move (s.read place ch) 1
    | [], none => return .stop (s.pieces stop)

/-- The pieces between the cursor and offset `stop`. -/
def pieces (c : Cursor) (stop : Nat) : Except Fault (List Piece) := do
  (← c.allPieces stop).filterM (·.isFilled)

end Cursor

end EnumExtract
