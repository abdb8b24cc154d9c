/-
  EnumExtract.Output.Record
  ────────────────────────────────
  Structs as text, and the struct that is made of a variant.
-/
import EnumExtract.Schema.StructDecl
import EnumExtract.Schema.Variant
import EnumExtract.Text.Lines

namespace EnumExtract

/-- The attributes of the struct made of a variant: the variant's own entries and, of the
enum's, the derives.  An excluded variant makes no struct. -/
def Variant.structMetadata? (variant : Variant) (enumMetadata : List Metadata) :
    Option (List Metadata) :=
  if variant.excluded then none
  else some (Metadata.merge (variant.metadata ++ Metadata.inCategory .derive enumMetadata))

namespace Field

/-- A field of a struct without its name, as it is printed. -/
def publicType (field : Field) : Text :=
  "pub " ++ field.type.text

/-- A field of a struct with its name, as it is printed. -/
def publicMember (field : Field) : Text :=
  "pub " ++ ShapeDifference.shownName field.name ++ ": " ++ field.type.text

/-- The lines of a field inside a struct: its attributes, then `member` and a comma, all four
spaces in. -/
def memberLines (member : Field → Text) (field : Field) : List Text :=
  (field.attrs ++ [member field ++ ","]).map ("    " ++ ·)

end Field

namespace StructDecl

/-- The struct keyword and what comes before it, and the name. -/
def headLine (struct : StructDecl) : Text :=
  let visibility : Text := if struct.visibility.isEmpty then [] else struct.visibility ++ " "
  visibility ++ "struct " ++ struct.name

/-- The lines of the declaration after its attributes.  Every field is public.  A positional
struct whose fields have no attributes is put on one line. -/
def declarationLines (struct : StructDecl) : List Text :=
  let head := struct.headLine
  let fields := struct.shape.fields
  match struct.shape.kind with
  | .unit => [head ++ ";"]
  | .positional =>
      if fields.any (!·.attrs.isEmpty) then
        (head ++ "(") :: fields.flatMap (Field.memberLines Field.publicType) ++ [(");" : Text)]
      else [head ++ "(" ++ Text.join ", " (fields.map Field.publicType) ++ ");"]
  | .named =>
      (head ++ " \x7b") :: fields.flatMap (Field.memberLines Field.publicMember)
        ++ [("\x7d" : Text)]

/-- The lines of the declaration, its attributes cut at their line breaks. -/
def lines (struct : StructDecl) : List Text :=
  struct.metadata.flatMap (Text.lines ·.text) ++ struct.declarationLines

end StructDecl

end EnumExtract
