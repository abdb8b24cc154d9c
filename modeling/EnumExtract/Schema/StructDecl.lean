/-
  EnumExtract.Schema.StructDecl
  ────────────────────────────────
  Struct declarations, read from an item or made from a variant.
-/
import EnumExtract.Schema.Metadata
import EnumExtract.Schema.Shape
import EnumExtract.Source.Item

namespace EnumExtract

/-- A struct with its fields. -/
structure StructDecl where
  name : Text
  visibility : Text
  shape : Shape
  /-- Its attributes, the binding directive left out. -/
  metadata : List Metadata
  /-- The offset of its first attribute or keyword, zero for a struct that is in no source. -/
  start : Nat
  /-- The offset just past its declaration. -/
  stop : Nat
  deriving Repr, DecidableEq

namespace StructDecl

/-- The directive that binds a struct to a variant. -/
def directive : Text := "variant_of"

/-- The fields of the struct whose body begins at the cursor, and the offset just past the
declaration.  Positional fields need a semicolon after them. -/
def readBody (body : Cursor) (name : Text) : Except Fault (List Field × Nat) := do
  if body.sees ";" then return ([], body.offset + 1)
  else if body.sees "(" then
    let close ← body.closing
    let fields ← Field.readList body close.offset false
    let semicolon ← (close.advance 1).skipTrivia
    if !semicolon.sees ";" then semicolon.fail (.expectedSemicolon name)
    return (fields, semicolon.offset + 1)
  else if body.sees "\x7b" then
    let close ← body.closing
    return (← Field.readList body close.offset true, close.offset + 1)
  else body.fail (.expectedStructBody name)

/-- The struct that an item of `source` declares. -/
def read (source : Text) (item : Item) : Except Fault StructDecl := do
  let body ← (source.cursor item.bodyIndex).skipTrivia
  if body.sees "<" then body.fail (.genericParameters .struct item.name)
  let (fields, stop) ← readBody body item.name
  let shape ← Shape.classify fields body.offset
  let metadata ← (item.attrs.filter (·.path ≠ directive)).mapM Metadata.ofAttribute
  return ⟨item.name, item.visibility, shape, metadata, item.start, stop⟩

end StructDecl

end EnumExtract
