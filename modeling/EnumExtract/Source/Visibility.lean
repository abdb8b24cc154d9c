/-
  EnumExtract.Source.Visibility
  ────────────────────────────────
  Visibility: `pub`, alone or with a scope in parentheses.
-/
import EnumExtract.Source.Name

namespace EnumExtract

/-- The length of a scope at the start of a text, parentheses included: `(crate)`, `(self)`,
`(super)` or `(in path)`, blanks allowed inside. -/
def scopeLength? : Text → Option Nat
  | '(' :: rest => do
      let before := Text.blanks rest
      let scope ← scopeBody? (rest.drop before)
      let after := Text.blanks (rest.drop (before + scope))
      if (rest.drop (before + scope + after)).head? = some ')' then
        some (before + scope + after + 2)
      else none
  | _ => none
where
  /-- What the parentheses hold.  A path after `in` is a run of word characters, colons and
  blanks that begins with a blank and goes on after it. -/
  scopeBody? (t : Text) : Option Nat :=
    match (["crate", "self", "super"] : List Text).find? (Text.startsWith t) with
    | some word => some word.length
    | none =>
        let path := (t.drop 2).takeWhile fun c => isWord c || c == ':' || isBlank c
        if Text.startsWith t "in" && path.head?.any isBlank && 2 ≤ path.length then
          some (path.length + 2)
        else none

namespace Cursor

/-- The visibility at the cursor as it is written, with the blanks of a scope collapsed, and
the place after it.  Without one the text is empty and the place the cursor. -/
def readVisibility (c : Cursor) : Except Fault (Text × Cursor) := do
  match c.identifier? with
  | none => return ([], c)
  | some (word, after) =>
      if word ≠ "pub" then return ([], c)
      let scope ← after.skipTrivia
      match scopeLength? scope.ahead with
      | some length =>
          return ("pub" ++ Text.collapse (scope.ahead.take length), scope.advance length)
      | none => return ("pub", after)

end Cursor

end EnumExtract
