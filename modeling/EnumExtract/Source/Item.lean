/-
  EnumExtract.Source.Item
  ────────────────────────────────
  Items: the enum and struct declarations of a source, found without parsing
  anything else.

  The scan passes over comments and literals, notes the inline modules it is
  inside of, and reads the head of a declaration wherever a doc comment, an
  attribute, `pub`, `enum` or `struct` stands.  Bodies are read later, on demand.
-/
import EnumExtract.Source.Attribute
import EnumExtract.Source.Visibility

namespace EnumExtract

/-- The head of an enum or struct declaration. -/
structure Item where
  kind : DeclKind
  name : Text
  /-- The attributes and doc comments before it. -/
  attrs : List Attribute
  visibility : Text
  /-- The offset of its first attribute, doc comment or keyword. -/
  start : Nat
  /-- The offset just past its name. -/
  bodyIndex : Nat
  /-- The names of the inline modules around it, the outermost first. -/
  module : List Text
  deriving Repr, DecidableEq

namespace Item

/-- The name with the modules around it. -/
def path (item : Item) : List Text :=
  item.module ++ [item.name]

end Item

/-- An inline module that is open: its name and the offset of its closing brace. -/
structure OpenModule where
  name : Text
  close : Nat
  deriving Repr, DecidableEq

namespace Cursor

/-! ## §1. The head of a declaration. -/

/-- The declaration whose prelude starts at the cursor, and the place to go on from.  Without
a declaration that is the word that was met instead, at least one character on, or the place
after a keyword that no name follows. -/
def readItem (c : Cursor) (module : List Text) : Except Fault (Option Item × Cursor) := do
  let (attrs, head) ← c.readPrelude
  let (visibility, afterVisibility) ← head.readVisibility
  let place ← afterVisibility.skipTrivia
  match place.identifier?.bind fun (word, after) => (DeclKind.ofKeyword? word).map (·, after) with
  | none => return (none, if place.offset ≤ c.offset then c.advance 1 else place)
  | some (kind, afterKeyword) =>
      match (← afterKeyword.skipTrivia).identifier? with
      | none => return (none, afterKeyword)
      | some (name, after) =>
          return (some ⟨kind, name, attrs, visibility, c.offset, after.offset, module⟩, after)

/-! ## §2. The scan. -/

/-- The items found, the latest first, and the open modules, the innermost first. -/
structure Scan where
  items : List Item
  modules : List OpenModule

/-- The inline module whose `mod` is at the cursor, and the place of its opening brace. -/
def openModule? (c : Cursor) : Except Fault (Option (OpenModule × Cursor)) := do
  match (← (c.advance 3).skipTrivia).identifier? with
  | none => return none
  | some (name, after) =>
      let body ← after.skipTrivia
      if body.sees "\x7b" then
        let close ← body.closing
        return some (⟨name, close.offset⟩, body)
      else return none

/-- A doc comment, an attribute or a word that may begin a declaration is at the cursor. -/
def mayStartItem (c : Cursor) : Bool :=
  startsDocComment c.ahead || c.sees "#[" || c.startsKeyword ["pub", "enum", "struct"]

/-- One step of the scan.  Modules whose closing brace lies behind are left first. -/
def scanStep (s : Scan) (place : Cursor) : Except Fault (Step Scan (List Item)) := do
  let modules := s.modules.dropWhile (·.close < place.offset)
  if place.startsKeyword ["mod"] then
    match ← place.openModule? with
    | some (module, body) =>
        return .move ⟨s.items, module :: modules⟩ (body.offset + 1 - place.offset)
    | none => return .move ⟨s.items, modules⟩ 3
  else if place.mayStartItem then
    let (item?, next) ← place.readItem (modules.reverse.map (·.name))
    return .move ⟨item?.toList ++ s.items, modules⟩ (next.offset - place.offset)
  else
    return .move ⟨s.items, modules⟩ ((← place.lexeme?).getD 1)

/-- The declarations from the cursor on, in order. -/
def items (c : Cursor) : Except Fault (List Item) :=
  walk scanStep (fun s _ => .ok s.items.reverse) ⟨[], []⟩ c

end Cursor

/-- The enum and struct declarations of a text in order, those inside modules included. -/
def Text.items (t : Text) : Except Fault (List Item) :=
  (t.cursor 0).items

end EnumExtract
