/-
  EnumExtract.Source.Attribute
  ────────────────────────────────
  Attributes: `#[path …]` and doc comments, and the prelude of attributes that
  stands before a declaration, a field or a variant.
-/
import EnumExtract.Source.Bracket
import EnumExtract.Source.Name

namespace EnumExtract

/-! ## §1. Attributes. -/

/-- The text between the parentheses of an attribute, and where it starts. -/
structure AttributeArgs where
  text : Text
  start : Nat
  deriving Repr, DecidableEq

/-- An outer attribute or a doc comment of a source. -/
structure Attribute where
  /-- The path without blanks; `doc` for a doc comment. -/
  path : Text
  /-- The attribute as written. -/
  text : Text
  /-- The offset of its first character. -/
  start : Nat
  /-- The offset just past its last character. -/
  stop : Nat
  /-- What its path is applied to, if the path is followed by parentheses. -/
  args : Option AttributeArgs
  deriving Repr, DecidableEq

/-- The attributes whose path is `path`. -/
def Attribute.named (path : Text) (attrs : List Attribute) : List Attribute :=
  attrs.filter (·.path = path)

namespace Cursor

/-- The doc comment at the cursor, without the blanks at its end.  Where no lexeme starts,
the rest of the text is taken. -/
def readDocComment (c : Cursor) : Except Fault Attribute := do
  let length := (← c.lexeme?).getD c.ahead.length
  let text := Text.trimEnd (c.ahead.take length)
  return ⟨"doc", text, c.offset, c.offset + text.length, none⟩

/-- The attribute whose `#` is at the cursor and whose bracket follows. -/
def readAttribute (c : Cursor) : Except Fault Attribute := do
  let close ← (c.advance 1).closing
  let head ← (c.advance 2).skipTrivia
  let length := Text.pathLength (head.upTo close.offset)
  if length = 0 then head.fail .expectedAttributePath
  let next ← (head.advance length).skipTrivia
  let args ←
    if next.offset < close.offset && next.sees "(" then do
      let argsClose ← next.closing
      pure (some ⟨(next.advance 1).upTo argsClose.offset, next.offset + 1⟩)
    else pure none
  return ⟨Text.unspaced (head.ahead.take length), c.upTo (close.offset + 1), c.offset,
    close.offset + 1, args⟩

/-! ## §2. Preludes. -/

/-- One step through a prelude: trivia is passed over, an attribute is put in front of
those already read, and anything else ends the prelude. -/
def preludeStep (attrs : List Attribute) (place : Cursor) :
    Except Fault (Step (List Attribute) (List Attribute × Cursor)) := do
  match ← place.trivium? true with
  | some length => return .move attrs length
  | none =>
      if startsDocComment place.ahead then
        let attr ← place.readDocComment
        return .move (attr :: attrs) (attr.stop - attr.start)
      else if place.sees "#[" then
        let attr ← place.readAttribute
        return .move (attr :: attrs) (attr.stop - attr.start)
      else return .stop (attrs.reverse, place)

/-- The attributes and doc comments from the cursor on, and the place of what they
belong to. -/
def readPrelude (c : Cursor) : Except Fault (List Attribute × Cursor) :=
  walk preludeStep (fun attrs place => .ok (attrs.reverse, place)) [] c

end Cursor

end EnumExtract
