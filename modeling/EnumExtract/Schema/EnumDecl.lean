/-
  EnumExtract.Schema.EnumDecl
  ────────────────────────────────
  Enum declarations, read from an item: the variants, the attributes that stay
  with the enum, and the directives that are taken out of the source.
-/
import EnumExtract.Schema.Variant
import EnumExtract.Source.Item

namespace EnumExtract

/-- An enum with its variants. -/
structure EnumDecl where
  name : Text
  visibility : Text
  variants : List Variant
  /-- Its attributes, directives and marked derives left out. -/
  metadata : List Metadata
  /-- The offset of its first attribute or keyword. -/
  start : Nat
  /-- The offset just past its closing brace. -/
  stop : Nat
  /-- Where the directives on the enum and on its variants stand. -/
  directives : List Span
  /-- The edits that take the marker out of its derives. -/
  deriveEdits : List Edit
  deriving Repr, DecidableEq

namespace EnumDecl

/-- The directive that marks an enum for extraction, also as a derived trait. -/
def marker : Text := "extract_variant"

/-- The paths of the attributes that are directives on an enum. -/
def directivePaths : List Text :=
  [marker, "prefix", "suffix", "no_impl"]

/-- An enum that is marked, by attribute or by derive. -/
def isMarked (source : Text) (item : Item) : Except Fault Bool :=
  if item.kind = .enum then
    item.attrs.anyM fun attr => do
      if attr.path = marker then return true
      return (← attr.withoutTrait? source marker).isSome
  else .ok false

/-- An attribute of an enum: the edit that takes the marker out of a derive, or else what
stays with the enum.  The traits of a marked derive are not kept. -/
def addAttribute (source : Text) (kept : List Metadata × List Edit) (attr : Attribute) :
    Except Fault (List Metadata × List Edit) := do
  if directivePaths.contains attr.path then return kept
  match ← attr.withoutTrait? source marker with
  | some edit => return (kept.1, kept.2 ++ [edit])
  | none => return (kept.1 ++ [← Metadata.ofAttribute attr], kept.2)

/-- The enum that an item of `source` declares.  Type and lifetime parameters are refused
before the body is read. -/
def read (source : Text) (item : Item) : Except Fault EnumDecl := do
  let body ← (source.cursor item.bodyIndex).skipTrivia
  if body.sees "<" then body.fail (.genericParameters .enum item.name)
  if !body.sees "\x7b" then body.fail (.expectedEnumBody item.name)
  let close ← body.closing
  let variants ← Variant.readBody source body close.offset
  let (metadata, deriveEdits) ← item.attrs.foldlM (addAttribute source) ([], [])
  let own := (item.attrs.filter (directivePaths.contains ·.path)).map fun attr =>
    Span.mk attr.start attr.stop
  return {
    name := item.name
    visibility := item.visibility
    variants
    metadata
    start := item.start
    stop := close.offset + 1
    directives := own ++ variants.flatMap (·.directives)
    deriveEdits }

end EnumDecl

end EnumExtract
