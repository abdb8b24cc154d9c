/-
  EnumExtract.Schema.Shape
  ────────────────────────────────
  Fields and shapes: what a struct or a variant holds, how it is read from a
  list in brackets, and where two shapes differ.
-/
import EnumExtract.Schema.FieldType
import EnumExtract.Source.Attribute
import EnumExtract.Source.Piece
import EnumExtract.Source.Visibility

namespace EnumExtract

/-! ## §1. Fields. -/

/-- A field of a struct or variant; a positional field has no name. -/
structure Field where
  name : Option Text
  type : FieldType
  /-- Its attributes and doc comments as written. -/
  attrs : List Text
  deriving Repr, DecidableEq

namespace Field

/-- The identifier before a single colon at the start of a text, and the length through that
colon. -/
def label? (t : Text) : Option (Text × Nat) := do
  let name ← Text.identifier? t
  let blanks := Text.blanks (t.drop name.length)
  let rest := t.drop (name.length + blanks)
  if Text.startsWith rest ":" && !Text.startsWith rest "::" then
    some (name, name.length + blanks + 1)
  else none

/-- The field that a piece of a field list holds; `named` says which kind the list wants.
The field's own visibility is passed over. -/
def read (named : Bool) (piece : Piece) : Except Fault Field := do
  let (attrs, head) ← piece.start.readPrelude
  let (_, afterVisibility) ← head.readVisibility
  let place ← afterVisibility.skipTrivia
  if piece.stop ≤ place.offset then piece.start.fail .expectedField
  let label := label? (place.upTo piece.stop)
  if named ≠ label.isSome then place.fail .mixedFields
  let typeStart := place.advance (label.elim 0 (·.2))
  let written := Text.trim (← (Piece.mk typeStart piece.stop).withoutComments)
  if written.isEmpty then typeStart.fail .expectedFieldType
  return ⟨label.map (·.1), FieldType.ofText written, attrs.map (·.text)⟩

/-- The fields between an opening bracket and the offset `close` of its closing one. -/
def readList (opening : Cursor) (close : Nat) (named : Bool) : Except Fault (List Field) := do
  ((← (opening.advance 1).pieces close)).mapM (read named)

end Field

/-! ## §2. Shapes. -/

/-- A layout and its fields. -/
structure Shape where
  kind : ShapeKind
  fields : List Field
  deriving Repr, DecidableEq

namespace Shape

/-- The shape of a list of fields: no fields make a unit, fields with names a named shape,
fields without a positional one.  A mixture is a fault at `index`. -/
def classify (fields : List Field) (index : Nat) : Except Fault Shape :=
  if fields.isEmpty then .ok ⟨.unit, []⟩
  else if fields.all (·.name.isSome) then .ok ⟨.named, fields⟩
  else if fields.all (·.name.isNone) then .ok ⟨.positional, fields⟩
  else .error ⟨.mixedFields, index, none⟩

/-- The first field in which two lists differ by name or by type, counting from `position`. -/
def fieldDifference? (position : Nat) : List Field → List Field → Option ShapeDifference
  | want :: wants, got :: gots =>
      if want.name ≠ got.name then some (.fieldName position want.name got.name)
      else if !want.type.same got.type then
        some (.fieldType position want.type.text got.type.text)
      else fieldDifference? (position + 1) wants gots
  | _, _ => none

/-- The first difference between the shape that is expected and the one that is there: in
layout, then in the number of fields, then field by field. -/
def difference? (expected found : Shape) : Option ShapeDifference :=
  if expected.kind ≠ found.kind then some (.kind expected.kind found.kind)
  else if expected.fields.length ≠ found.fields.length then
    some (.count expected.fields.length found.fields.length)
  else fieldDifference? 0 expected.fields found.fields

end Shape

end EnumExtract
