/-
  EnumExtract.Source.Bracket
  ────────────────────────────────
  Brackets: from an opening bracket to the one that closes it.  Comments and
  literals are passed over, and brackets of all three kinds have to nest.
-/
import EnumExtract.Source.Lexeme

namespace EnumExtract

/-- The bracket that closes an opening one. -/
def closer? : Char → Option Char
  | '(' => some ')'
  | '[' => some ']'
  | '{' => some '}'
  | _ => none

/-- The closing brackets. -/
def isCloser (c : Char) : Bool :=
  c == ')' || c == ']' || c == '}'

namespace Cursor

/-- One step of the search for a closing bracket.  `awaited` holds the closers of the open
brackets, the innermost first; the search is over when the last of them is met. -/
def bracketStep (awaited : List Char) (place : Cursor) :
    Except Fault (Step (List Char) Cursor) := do
  match ← place.lexeme? with
  | some length => return .move awaited length
  | none =>
      match place.ahead with
      | [] => return .stop place
      | ch :: _ =>
          match closer? ch with
          | some closer => return .move (closer :: awaited) 1
          | none =>
              if isCloser ch then
                match awaited with
                | innermost :: outer =>
                    if innermost ≠ ch then place.fail (.unbalanced ch)
                    else if outer.isEmpty then return .stop place
                    else return .move outer 1
                | [] => place.fail (.unbalanced ch)
              else return .move awaited 1

/-- The place of the bracket that closes the one at the cursor. -/
def closing (c : Cursor) : Except Fault Cursor :=
  match c.ahead with
  | [] => c.fail (.expectedBracket none)
  | opener :: _ =>
      if (closer? opener).isNone then c.fail (.expectedBracket (some opener))
      else walk bracketStep (fun _ _ => c.fail (.unclosed opener)) [] c

end Cursor

end EnumExtract
