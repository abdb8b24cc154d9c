/-
  EnumExtract.GeneratedFile
  ────────────────────────────────
  The file that is generated for a source: a header that names where it comes
  from and holds a digest of all that went into it, an empty line, and the
  transformed source.
-/
import EnumExtract.Digest.Sha256
import EnumExtract.Text.Utf8
import EnumExtract.Transform

namespace EnumExtract

/-- A file that is read: its name as messages and headers show it, and its text. -/
structure SourceFile where
  label : Text
  text : Text
  deriving Repr, DecidableEq

namespace GeneratedFile

/-! ## §1. The digest. -/

/-- The version of the generator, which is part of the digest. -/
def version : Text := "0.3.0"

/-- The bytes that are digested: the version, the source and the schemas, a zero byte in front
of each but the first. -/
def digestInput (source : Text) (schemas : List Text) : List UInt8 :=
  version.toUtf8 ++ (source :: schemas).flatMap fun text => 0 :: Text.toUtf8 text

/-- The digest of a source and its schemas. -/
def digest (source : Text) (schemas : List Text) : Text :=
  Sha256.hexDigest (digestInput source schemas)

/-! ## §2. The header. -/

/-- The first and the last line of a header. -/
def border : Text := "// x-------------------------------------------x //"

/-- The lines of a header.  The line of the schemas is left out when there are none. -/
def header (label : Text) (schemas : List Text) (digest : Text) : List Text :=
  let schemaLines : List Text :=
    if schemas.isEmpty then [] else ["// | Schema: " ++ Text.join ", " schemas]
  [border, "// | Generated by " ++ generatorName ++ " " ++ version, "// | Source: " ++ label]
    ++ schemaLines ++ ["// | Digest: " ++ digest, border]

end GeneratedFile

/-! ## §3. The file. -/

/-- A generated file and the blocks in it. -/
structure GeneratedFile where
  content : Text
  blocks : List Block
  deriving Repr, DecidableEq

namespace GeneratedFile

/-- The enums of a schema file; a fault names the file that it is in. -/
def schemaEnums (file : SourceFile) : Except Fault (List EnumSource) :=
  match EnumSource.ofFile file.label file.text with
  | .ok enums => .ok enums
  | .error fault => .error { fault with source := some file.label }

/-- The file generated for a source.  All schema files are scanned first. -/
def generate (source : SourceFile) (schemas : List SourceFile) : Except Fault GeneratedFile := do
  let enums ← schemas.mapM schemaEnums
  let rendered ← transform source.text enums.flatten source.label
  let lines := header source.label (schemas.map (·.label))
    (digest source.text (schemas.map (·.text)))
  return ⟨Text.join "\n" lines ++ "\n\n" ++ rendered.text, rendered.blocks⟩

end GeneratedFile

end EnumExtract
