/-
  EnumExtract.Source.Trivia
  ────────────────────────────────
  Trivia: the blanks and comments between the tokens of a source.
-/
import EnumExtract.Source.Lexeme
import EnumExtract.Text.Blank

namespace EnumExtract.Cursor

/-- The length of the blank or comment at the cursor, if there is one.  With `keepDocs` a
doc comment is no trivia. -/
def trivium? (c : Cursor) (keepDocs : Bool) : Except Fault (Option Nat) :=
  match c.ahead with
  | [] => .ok none
  | ch :: _ =>
      if isBlank ch then .ok (some 1)
      else if keepDocs && startsDocComment c.ahead then .ok none
      else c.comment?

/-- The first place at or after the cursor where no trivia stands. -/
def skipTrivia (c : Cursor) (keepDocs : Bool := false) : Except Fault Cursor :=
  walk step (fun _ place => .ok place) () c
where
  step (_ : Unit) (place : Cursor) : Except Fault (Step Unit Cursor) := do
    match ← place.trivium? keepDocs with
    | some length => return .move () length
    | none => return .stop place

end EnumExtract.Cursor
