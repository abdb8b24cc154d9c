/-
  EnumExtract.Source.Name
  ────────────────────────────────
  Names and paths.

      name        a name start, then word characters
      identifier  a name, or `r#` and a name
      path        names with `::` between them, blanks allowed around `::`
-/
import EnumExtract.Source.Trivia

namespace EnumExtract

namespace Text

/-- The length of the name at the start of a text, zero if there is none. -/
def nameLength : Text → Nat
  | c :: rest => if isNameStart c then (rest.takeWhile isWord).length + 1 else 0
  | [] => 0

/-- The name at the start of a text. -/
def name? (t : Text) : Option Text :=
  if nameLength t = 0 then none else some (t.take (nameLength t))

/-- The length of the identifier at the start of a text, zero if there is none.
An `r#` with no name behind it is the name `r`. -/
def identifierLength : Text → Nat
  | 'r' :: '#' :: rest => if nameLength rest = 0 then 1 else nameLength rest + 2
  | t => nameLength t

/-- The identifier at the start of a text. -/
def identifier? (t : Text) : Option Text :=
  if identifierLength t = 0 then none else some (t.take (identifierLength t))

/-- The length of the `::` and the name that continue a path. -/
def segmentLength? (t : Text) : Option Nat :=
  let colons := blanks t
  let rest := t.drop colons
  if startsWith rest "::" then
    let name := blanks (rest.drop 2)
    let length := nameLength (rest.drop (2 + name))
    if length = 0 then none else some (colons + 2 + name + length)
  else none

/-- The length of the path at the start of a text, zero if there is none. -/
def pathLength (t : Text) : Nat :=
  if nameLength t = 0 then 0
  else nameLength t + Cursor.runLength segmentLength? (t.drop (nameLength t))

/-- The segments of a written path: the parts between its double colons. -/
def segments (path : Text) : List Text :=
  go false path
where
  /-- `claimed`: the colon ahead is the second of a pair. -/
  go (claimed : Bool) : Text → List Text
    | [] => [[]]
    | c :: rest =>
        if claimed then go false rest
        else if Text.startsWith (c :: rest) "::" then [] :: go true rest
        else
          match go false rest with
          | [] => [[c]]
          | segment :: more => (c :: segment) :: more

end Text

namespace Cursor

/-- The identifier at the cursor and the place after it. -/
def identifier? (c : Cursor) : Option (Text × Cursor) :=
  (Text.identifier? c.ahead).map fun name => (name, c.advance name.length)

/-- The identifier at the cursor and the place after it; its absence is a fault. -/
def readIdentifier (c : Cursor) : Except Fault (Text × Cursor) :=
  match c.identifier? with
  | some found => .ok found
  | none => c.fail .expectedIdentifier

/-- A word starts at the cursor, and it is one of `keywords`. -/
def startsKeyword (c : Cursor) (keywords : List Text) : Bool :=
  c.atWordStart && (Text.identifier? c.ahead).any (keywords.contains ·)

end Cursor

end EnumExtract
