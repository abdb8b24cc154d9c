/-
  EnumExtract.Schema.Variant
  ────────────────────────────────
  Variants of an enum, with the directives written on them: `#[exclude]` keeps
  a variant from being extracted, `#[variant_attrs(…)]` lists attributes for
  the struct that is made of it.  An explicit discriminant is passed over.
-/
import EnumExtract.Schema.Metadata
import EnumExtract.Schema.Shape

namespace EnumExtract

/-- A variant of an enum. -/
structure Variant where
  name : Text
  shape : Shape
  /-- Its doc comments and the attributes that `#[variant_attrs(…)]` lists, in order. -/
  metadata : List Metadata
  /-- It carries `#[exclude]`. -/
  excluded : Bool
  /-- The offset of its name. -/
  index : Nat
  /-- Where its directives stand. -/
  directives : List Span
  deriving Repr, DecidableEq

namespace Variant

/-- What the attributes of a variant come to. -/
structure Directives where
  metadata : List Metadata
  spans : List Span
  excluded : Bool
  /-- A `#[variant_attrs(…)]` has been read. -/
  listed : Bool

namespace Directives

/-- No attributes yet. -/
def empty : Directives :=
  ⟨[], [], false, false⟩

/-- The attributes listed in a `#[variant_attrs(…)]` of `source`. -/
def listedAttrs (source : Text) (attr : Attribute) : Except Fault (List Metadata) :=
  match attr.args with
  | none => .error ⟨.variantAttrsWithoutList, attr.start, none⟩
  | some args => do
      let (inner, place) ← (source.cursor args.start).readPrelude
      if (← place.skipTrivia).offset < args.start + args.text.length then
        place.fail .variantAttrsForeign
      inner.mapM Metadata.ofAttribute

/-- One more attribute.  Attributes that are neither directives nor docs say nothing. -/
def add (source : Text) (d : Directives) (attr : Attribute) : Except Fault Directives := do
  let span : Span := ⟨attr.start, attr.stop⟩
  if attr.path = "exclude" then
    return { d with excluded := true, spans := d.spans ++ [span] }
  else if attr.path = "variant_attrs" then
    if d.listed then .error ⟨.duplicateVariantAttrs, attr.start, none⟩
    let listed ← listedAttrs source attr
    return { d with metadata := d.metadata ++ listed, spans := d.spans ++ [span], listed := true }
  else if attr.path = "doc" then
    return { d with metadata := d.metadata ++ [← Metadata.ofAttribute attr] }
  else return d

end Directives

/-- The fields that open at the cursor, if a bracket of a field list does and the cursor is
before `stop`, and the place after them. -/
def readFields (place : Cursor) (stop : Nat) : Except Fault (List Field × Cursor) := do
  if place.offset < stop && (place.sees "(" || place.sees "\x7b") then
    let close ← place.closing
    let fields ← Field.readList place close.offset (place.sees "\x7b")
    return (fields, ← (close.advance 1).skipTrivia)
  else return ([], place)

/-- The variant that a piece of an enum's body holds. -/
def read (source : Text) (piece : Piece) : Except Fault Variant := do
  let (attrs, head) ← piece.start.readPrelude
  let (name, afterName) ← head.readIdentifier
  let (fields, rest) ← readFields (← afterName.skipTrivia) piece.stop
  if rest.offset < piece.stop && !rest.sees "=" then rest.fail (.unexpectedAfterVariant name)
  let directives ← attrs.foldlM (Directives.add source) Directives.empty
  let shape ← Shape.classify fields head.offset
  return ⟨name, shape, directives.metadata, directives.excluded, head.offset, directives.spans⟩

/-- The variant of that name, the first one if there are several. -/
def find? (name : Text) (variants : List Variant) : Option Variant :=
  List.find? (·.name = name) variants

/-- The variants of the pieces, in order; no two may share a name. -/
def readAll (source : Text) (pieces : List Piece) : Except Fault (List Variant) :=
  pieces.foldlM step []
where
  step (known : List Variant) (piece : Piece) : Except Fault (List Variant) := do
    let variant ← read source piece
    if (find? variant.name known).isSome then
      .error ⟨.duplicateVariant variant.name, variant.index, none⟩
    return known ++ [variant]

/-- The variants of the body whose opening brace is at the cursor and whose closing brace is at
the offset `close`. -/
def readBody (source : Text) (opening : Cursor) (close : Nat) : Except Fault (List Variant) := do
  readAll source (← (opening.advance 1).pieces close)

end Variant

end EnumExtract
