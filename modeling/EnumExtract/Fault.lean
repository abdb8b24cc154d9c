/-
  EnumExtract.Fault
  ────────────────────────────────
  What can go wrong while a source is read or generated code is made.

  A fault is a *cause* together with the offset it is reported at.  The cause
  fixes both the error code and the wording, so a fault's meaning is matched
  on and its text is only made at the edge, by `Cause.message`.
-/
import EnumExtract.Keyword
import EnumExtract.Text.Lines
import EnumExtract.Text.Quoted

namespace EnumExtract

/-! ## §1. Error codes. -/

/-- The class of a fault. -/
inductive ErrorCode where
  | parseError
  | unsupportedShape
  | fieldMismatch
  | unknownVariant
  | unknownUnion
  | nameCollision
  | duplicateAttribute
  | invalidParameter
  deriving Repr, DecidableEq

namespace ErrorCode

/-- The code as it is printed. -/
def name : ErrorCode → Text
  | .parseError => "PARSE_ERROR"
  | .unsupportedShape => "UNSUPPORTED_SHAPE"
  | .fieldMismatch => "FIELD_MISMATCH"
  | .unknownVariant => "UNKNOWN_VARIANT"
  | .unknownUnion => "UNKNOWN_UNION"
  | .nameCollision => "NAME_COLLISION"
  | .duplicateAttribute => "DUPLICATE_ATTRIBUTE"
  | .invalidParameter => "INVALID_PARAMETER"

/-- Every code. -/
def all : List ErrorCode :=
  [.parseError, .unsupportedShape, .fieldMismatch, .unknownVariant, .unknownUnion,
   .nameCollision, .duplicateAttribute, .invalidParameter]

/-- The code that is printed as `word`. -/
def ofName? (word : Text) : Option ErrorCode :=
  all.find? (·.name = word)

end ErrorCode

/-! ## §2. Differences between shapes. -/

/-- The first point in which the shape of a struct departs from the shape of a variant.
The first value is the variant's, the second the struct's. -/
inductive ShapeDifference where
  | kind (expected found : ShapeKind)
  | count (expected found : Nat)
  | fieldName (position : Nat) (expected found : Option Text)
  | fieldType (position : Nat) (expected found : Text)
  deriving Repr, DecidableEq

namespace ShapeDifference

/-- A field's name in a message; a field without one is called `None`. -/
def shownName (name : Option Text) : Text :=
  name.getD "None"

/-- The difference in words. -/
def message : ShapeDifference → Text
  | .kind expected found =>
      "expected a " ++ expected.name ++ " shape, found " ++ found.name
  | .count expected found =>
      "expected " ++ Text.ofNat expected ++ " fields, found " ++ Text.ofNat found
  | .fieldName position expected found =>
      "field " ++ Text.ofNat position ++ ": expected name `" ++ shownName expected
        ++ "`, found `" ++ shownName found ++ "`"
  | .fieldType position expected found =>
      "field " ++ Text.ofNat position ++ ": expected type `" ++ expected
        ++ "`, found `" ++ found ++ "`"

end ShapeDifference

/-! ## §3. Causes. -/

/-- Why reading or generating failed. -/
inductive Cause where
  /-- A block comment runs to the end of the text. -/
  | unterminatedBlockComment
  /-- A raw string literal runs to the end of the text. -/
  | unterminatedRawString
  /-- A string literal runs to the end of the text. -/
  | unterminatedString
  /-- A bracket was to open here. -/
  | expectedBracket (found : Option Char)
  /-- A closing bracket that closes none, or another kind than is open. -/
  | unbalanced (closer : Char)
  /-- The bracket is never closed. -/
  | unclosed (opener : Char)
  | expectedIdentifier
  | expectedAttributePath
  /-- Attributes with no field after them. -/
  | expectedField
  | expectedFieldType
  /-- A named field in a positional list, or the reverse. -/
  | mixedFields
  | unexpectedAfterVariant (variant : Text)
  | duplicateVariant (variant : Text)
  /-- `variant_attrs` without parentheses. -/
  | variantAttrsWithoutList
  /-- `variant_attrs` around something that is no attribute. -/
  | variantAttrsForeign
  | duplicateVariantAttrs
  /-- The declaration takes type or lifetime parameters. -/
  | genericParameters (kind : DeclKind) (name : Text)
  | expectedEnumBody (name : Text)
  | expectedStructBody (name : Text)
  | expectedSemicolon (name : Text)
  | optionExpectsIdentifier (option : Text)
  | noImplTakesNoArguments
  | unknownOption (option : Text)
  | malformedOptions
  | duplicateOption (option : Text)
  | duplicateExtractVariant
  | duplicateVariantOf
  | malformedVariantOf
  /-- Several enums answer to the path; `declared` says where. -/
  | ambiguousEnum (path : Text) (declared : List Text)
  | unknownEnum (path : Text)
  | unknownVariant (enum variant : Text)
  | shapeMismatch (struct enum variant : Text) (difference : ShapeDifference)
  | collidesWithEnum (identifier variant enum : Text)
  | collidesWithVariant (identifier variant owner : Text)
  /-- A cause met in the enum `enum` of the schema file `label`. -/
  | inSchema (cause : Cause) (enum label : Text)
  deriving Repr, DecidableEq

namespace Cause

/-- The class of the cause. -/
def code : Cause → ErrorCode
  | .mixedFields | .genericParameters .. => .unsupportedShape
  | .shapeMismatch .. => .fieldMismatch
  | .unknownVariant .. => .unknownVariant
  | .ambiguousEnum .. | .unknownEnum .. => .unknownUnion
  | .duplicateVariant .. | .collidesWithEnum .. | .collidesWithVariant .. => .nameCollision
  | .duplicateVariantAttrs | .duplicateOption .. | .duplicateExtractVariant
  | .duplicateVariantOf => .duplicateAttribute
  | .optionExpectsIdentifier .. | .noImplTakesNoArguments | .unknownOption ..
  | .malformedVariantOf => .invalidParameter
  | .inSchema cause _ _ => cause.code
  | _ => .parseError

/-- The cause in words. -/
def message : Cause → Text
  | .unterminatedBlockComment => "unterminated block comment"
  | .unterminatedRawString => "unterminated raw string literal"
  | .unterminatedString => "unterminated string literal"
  | .expectedBracket found => "expected an opening bracket, found " ++ Text.quoted found.toList
  | .unbalanced closer => "unbalanced " ++ Text.quoted [closer]
  | .unclosed opener => "unclosed " ++ Text.quoted [opener]
  | .expectedIdentifier => "expected identifier"
  | .expectedAttributePath => "expected attribute path"
  | .expectedField => "expected field after attributes"
  | .expectedFieldType => "expected field type"
  | .mixedFields => "named and unnamed fields cannot be mixed"
  | .unexpectedAfterVariant variant => "unexpected tokens after variant `" ++ variant ++ "`"
  | .duplicateVariant variant => "duplicate variant `" ++ variant ++ "`"
  | .variantAttrsWithoutList => "`variant_attrs` expects a list of attributes"
  | .variantAttrsForeign => "expected `#[...]` inside `variant_attrs`"
  | .duplicateVariantAttrs => "duplicate #[variant_attrs] attribute"
  | .genericParameters kind name =>
      kind.keyword ++ " `" ++ name
        ++ "` has generic or lifetime parameters, which are not supported"
  | .expectedEnumBody name => "expected `\x7b` after enum `" ++ name ++ "`"
  | .expectedStructBody name => "expected struct body for `" ++ name ++ "`"
  | .expectedSemicolon name => "expected `;` after struct `" ++ name ++ "`"
  | .optionExpectsIdentifier option =>
      "`" ++ option ++ "` expects an identifier, e.g. " ++ option ++ "(My)"
  | .noImplTakesNoArguments => "`no_impl` takes no arguments"
  | .unknownOption option => "invalid parameter name `" ++ option ++ "`"
  | .malformedOptions => "malformed `extract_variant` options"
  | .duplicateOption option => "duplicate `" ++ option ++ "` option"
  | .duplicateExtractVariant => "duplicate #[extract_variant] attribute"
  | .duplicateVariantOf => "duplicate #[variant_of] attribute"
  | .malformedVariantOf => "expected #[variant_of(Enum)] or #[variant_of(Enum, Variant)]"
  | .ambiguousEnum path declared =>
      "enum path `" ++ path ++ "` is ambiguous (" ++ Text.join ", " declared ++ ")"
  | .unknownEnum path => "cannot find enum `" ++ path ++ "`"
  | .unknownVariant enum variant =>
      "enum `" ++ enum ++ "` has no variant `" ++ variant ++ "`"
  | .shapeMismatch struct enum variant difference =>
      "struct `" ++ struct ++ "` does not match `" ++ enum ++ "::" ++ variant ++ "`: "
        ++ difference.message
  | .collidesWithEnum identifier variant enum =>
      "struct `" ++ identifier ++ "` for variant `" ++ variant ++ "` collides with enum `"
        ++ enum ++ "`"
  | .collidesWithVariant identifier variant owner =>
      "struct `" ++ identifier ++ "` for variant `" ++ variant
        ++ "` collides with the struct generated for variant `" ++ owner ++ "`"
  | .inSchema cause enum label =>
      cause.message ++ " (enum `" ++ enum ++ "` in " ++ label ++ ")"

end Cause

/-! ## §4. Faults and diagnostics. -/

/-- A cause and where it is reported.  `source` names the schema file that
`index` points into; without one, `index` points into the input. -/
structure Fault where
  cause : Cause
  index : Nat
  source : Option Text := none
  deriving Repr, DecidableEq

/-- A fault in its printed parts. -/
structure Diagnostic where
  code : ErrorCode
  message : Text
  index : Nat
  source : Option Text
  deriving Repr, DecidableEq

namespace Diagnostic

/-- The diagnostic with the given parts; a code that there is not is refused. -/
def ofParts (code message : Text) (index : Nat) (source : Option Text) :
    Except Text Diagnostic :=
  match ErrorCode.ofName? code with
  | some known => .ok ⟨known, message, index, source⟩
  | none => .error ("Unknown generate error code: " ++ code)

/-- The diagnostic with the line and column of its offset in `text`, the
content of the file at `path`. -/
def located (d : Diagnostic) (path text : Text) : Text :=
  let place := text.location d.index
  path ++ ":" ++ Text.ofNat place.line ++ ":" ++ Text.ofNat place.column
    ++ ": error [" ++ d.code.name ++ "]: " ++ d.message

end Diagnostic

namespace Fault

/-- The printed parts of a fault. -/
def diagnostic (f : Fault) : Diagnostic :=
  ⟨f.cause.code, f.cause.message, f.index, f.source⟩

end Fault

end EnumExtract
