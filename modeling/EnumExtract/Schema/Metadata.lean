/-
  EnumExtract.Schema.Metadata
  ────────────────────────────────
  Metadata: the attributes of a declaration by what they are for.  Derives
  know their traits; they merge into one, and a trait can be taken out of one.
-/
import EnumExtract.Edit
import EnumExtract.Source.Attribute
import EnumExtract.Source.Piece

namespace EnumExtract

/-- What an attribute is for. -/
inductive MetadataCategory where
  | derive
  | doc
  | other
  deriving Repr, DecidableEq

namespace MetadataCategory

/-- The word for the category. -/
def name : MetadataCategory → Text
  | .derive => "derive"
  | .doc => "doc"
  | .other => "other"

/-- The category that a word stands for. -/
def ofName? (word : Text) : Option MetadataCategory :=
  [derive, doc, other].find? (·.name = word)

end MetadataCategory

/-- An attribute of a declaration. -/
structure Metadata where
  category : MetadataCategory
  /-- The attribute as written. -/
  text : Text
  /-- The traits of a derive, none for anything else. -/
  traits : List Text
  deriving Repr, DecidableEq

namespace Metadata

/-- The derive of the given traits. -/
def derive (traits : List Text) : Metadata :=
  ⟨.derive, "#[derive(" ++ Text.join ", " traits ++ ")]", traits⟩

/-- The metadata of an attribute: a doc comment or `#[doc …]`, a derive with its traits, or
anything else. -/
def ofAttribute (attr : Attribute) : Except Fault Metadata :=
  if attr.path = "doc" then .ok ⟨.doc, attr.text, []⟩
  else
    match attr.args with
    | some args =>
        if attr.path = "derive" then do
          let pieces ← (Text.cursor args.text 0).pieces args.text.length
          let traits ← pieces.mapM fun piece => return Text.unspaced (← piece.withoutComments)
          return ⟨.derive, attr.text, traits⟩
        else .ok ⟨.other, attr.text, []⟩
    | none => .ok ⟨.other, attr.text, []⟩

/-- The entries of one category. -/
def inCategory (category : MetadataCategory) (entries : List Metadata) : List Metadata :=
  entries.filter (·.category = category)

/-- The order in which metadata is written: the doc entries; one derive of all traits, each
once, in the order first seen; then the other entries, those equal but for blanks once. -/
def merge (entries : List Metadata) : List Metadata :=
  let traits := ((inCategory .derive entries).flatMap (·.traits)).eraseDups
  let others := (inCategory .other entries).eraseDupsBy fun a b =>
    Text.unspaced a.text == Text.unspaced b.text
  inCategory .doc entries ++ (if traits.isEmpty then [] else [derive traits]) ++ others

end Metadata

/-! ## Taking a trait out of a derive. -/

/-- The last segment of a path. -/
def Text.lastSegment (path : Text) : Text :=
  (Text.segments path).getLastD []

/-- The edit of `source` that takes the trait `trait` out of the derive `attr`, if it is
there.  A derive with no other trait goes altogether. -/
def Attribute.withoutTrait? (source : Text) (attr : Attribute) (trait : Text) :
    Except Fault (Option Edit) := do
  let entry ← Metadata.ofAttribute attr
  if entry.category ≠ .derive then return none
  let rest := entry.traits.filter (Text.lastSegment · ≠ trait)
  if rest.length = entry.traits.length then return none
  if rest.isEmpty then return some (source.removal ⟨attr.start, attr.stop⟩)
  return some ⟨attr.start, attr.stop, (Metadata.derive rest).text⟩

end EnumExtract
