/-
  EnumExtract.Output.Evaluation
  ────────────────────────────────
  What the text of a conversion does.

  The implementations are read back from their text, token by token, and
  evaluated on values whose fields may be of any kind.  A pattern binds the
  fields of a value to names; a constructor puts together what names are bound
  to.  Whether the names fit is decided by the layout that the struct or the
  variant is declared with.

      from       takes a struct apart and puts a variant together
      try_from   does the reverse for that variant, and gives back any other value
-/
import EnumExtract.Output.Conversion

namespace EnumExtract

/-! ## §1. Reading the text. -/

/-- What stands behind a path in a pattern or in a constructor. -/
inductive Arguments where
  | parentheses (names : List Text)
  | braces (names : List Text)
  deriving Repr, DecidableEq

/-- A struct or variant as a pattern takes it apart and a constructor puts it together. -/
structure Form where
  path : Text
  arguments : Arguments
  deriving Repr, DecidableEq

namespace Tokens

/-- The tokens behind those that are expected. -/
def expect? : List Text → List Text → Option (List Text)
  | [], tokens => some tokens
  | _ :: _, [] => none
  | word :: words, token :: tokens => if word = token then expect? words tokens else none

/-- The token may be part of a path. -/
def isPathPart (token : Text) : Bool :=
  token == "::" || token == "#" || (!token.isEmpty && Text.nameLength token == token.length)

/-- The path in front, and the tokens behind it. -/
def path? (tokens : List Text) : Option (Text × List Text) :=
  let parts := tokens.takeWhile isPathPart
  if parts.isEmpty then none else some (parts.flatten, tokens.drop parts.length)

/-- The identifiers up to a closing bracket, with commas between them, and the tokens behind it. -/
def names? (closer : Text) (tokens : List Text) : Option (List Text × List Text) := do
  let inner := tokens.takeWhile (· != closer)
  let rest ← expect? [closer] (tokens.drop inner.length)
  let names := if inner.isEmpty then [] else (inner.splitOn (",": Text)).map List.flatten
  if names.all fun name => Text.identifier? name == some name then some (names, rest) else none

/-- The form in front, and the tokens behind it. -/
def form? (tokens : List Text) : Option (Form × List Text) := do
  let (path, rest) ← path? tokens
  match rest with
  | [] => none
  | opener :: rest =>
      if opener = "(" then
        let (names, rest) ← names? ")" rest
        some (⟨path, .parentheses names⟩, rest)
      else if opener = "\x7b" then
        let (names, rest) ← names? "\x7d" rest
        some (⟨path, .braces names⟩, rest)
      else none

end Tokens

/-- The three implementations for a struct and an enum. -/
structure Implementations where
  struct : Text
  enum : Text
  /-- The struct as `from` takes it apart. -/
  parameter : Form
  /-- The variant that `from` puts together. -/
  embedded : Form
  /-- The variant as `try_from` takes it apart. -/
  matched : Form
  /-- The struct that `try_from` puts together. -/
  extracted : Form
  deriving Repr, DecidableEq

namespace Implementations

open Tokens

/-- The type that is converted from, the type that is converted to, and the two forms of
`from`, with the tokens behind the implementation. -/
def readFrom? (tokens : List Text) : Option ((Text × Text × Form × Form) × List Text) := do
  let tokens ← expect? ["impl", "::", "std", "::", "convert", "::", "From", "<"] tokens
  let (struct, tokens) ← path? tokens
  let tokens ← expect? [">", "for"] tokens
  let (enum, tokens) ← path? tokens
  let tokens ← expect? ["\x7b", "fn", "from", "("] tokens
  let (parameter, tokens) ← form? tokens
  let tokens ← expect? [":"] tokens
  let (type, tokens) ← path? tokens
  let tokens ← expect? [")", "->", "Self", "\x7b"] tokens
  let (embedded, tokens) ← form? tokens
  let tokens ← expect? ["\x7d", "\x7d"] tokens
  if type = struct then some ((struct, enum, parameter, embedded), tokens) else none

/-- The same for `try_from`, whose error type has to be the type that is converted from. -/
def readTryFrom? (tokens : List Text) : Option ((Text × Text × Form × Form) × List Text) := do
  let tokens ← expect? ["impl", "::", "std", "::", "convert", "::", "TryFrom", "<"] tokens
  let (enum, tokens) ← path? tokens
  let tokens ← expect? [">", "for"] tokens
  let (struct, tokens) ← path? tokens
  let tokens ← expect? ["\x7b", "type", "Error", "="] tokens
  let (error, tokens) ← path? tokens
  let tokens ← expect? [";", "fn", "try_from", "(", "value", ":"] tokens
  let (type, tokens) ← path? tokens
  let tokens ← expect? [")", "->", "::", "std", "::", "result", "::", "Result", "<", "Self", ",",
    "Self", "::", "Error", ">", "\x7b", "if", "let"] tokens
  let (matched, tokens) ← form? tokens
  let tokens ← expect? ["=", "value", "\x7b", "Ok", "("] tokens
  let (extracted, tokens) ← form? tokens
  let tokens ← expect? [")", "\x7d", "else", "\x7b", "Err", "(", "value", ")", "\x7d", "\x7d", "\x7d"]
    tokens
  if error = enum ∧ type = enum then some ((struct, enum, matched, extracted), tokens) else none

/-- The implementations that some lines hold: of `from`, of `try_from` and of the marker, for one
struct and one enum. -/
def ofLines? (lines : List Text) : Option Implementations := do
  let ((struct, enum, parameter, embedded), tokens) ← readFrom? (lines.flatMap FieldType.tokenize)
  let ((struct', enum', matched, extracted), tokens) ← readTryFrom? tokens
  let tokens ← expect? ["impl", "::", "variant_traits", "::", "Variant", "<"] tokens
  let (markedEnum, tokens) ← path? tokens
  let tokens ← expect? [">", "for"] tokens
  let (markedStruct, tokens) ← path? tokens
  if tokens = (["\x7b", "\x7d"] : List Text) ∧ struct' = struct ∧ enum' = enum ∧ markedStruct = struct
      ∧ markedEnum = enum then
    some ⟨struct, enum, parameter, embedded, matched, extracted⟩
  else none

end Implementations

/-! ## §2. Values. -/

/-- How the fields of a struct or of a variant are declared. -/
inductive Layout where
  | unit
  | tuple (arity : Nat)
  | braces (names : List Text)
  deriving Repr, DecidableEq

namespace Layout

variable {α : Type}

/-- The number of the fields. -/
def arity : Layout → Nat
  | unit => 0
  | tuple arity => arity
  | braces names => names.length

/-- The names that a pattern binds the fields to.  Empty braces fit whatever has no fields; names
in braces are those of the fields, in any order. -/
def bind? (layout : Layout) (arguments : Arguments) (values : List α) :
    Option (List (Text × α)) :=
  if values.length ≠ layout.arity then none
  else
    match layout, arguments with
    | tuple arity, .parentheses names =>
        if names.length = arity ∧ names.Nodup then some (names.zip values) else none
    | braces fields, .braces names =>
        if names.Perm fields ∧ fields.Nodup then some (fields.zip values) else none
    | other, .braces [] => if other.arity = 0 then some [] else none
    | _, _ => none

/-- The fields that a constructor puts together, in the order of the declaration. -/
def build? (layout : Layout) (arguments : Arguments) (bound : List (Text × α)) :
    Option (List α) :=
  match layout, arguments with
  | tuple arity, .parentheses names =>
      if names.length = arity then names.mapM (bound.lookup ·) else none
  | braces fields, .braces names =>
      if names.Perm fields then fields.mapM (bound.lookup ·) else none
  | other, .braces [] => if other.arity = 0 then some [] else none
  | _, _ => none

end Layout

/-- A value: the path of its struct or variant, and its fields in the order of the declaration. -/
structure Value (α : Type) where
  constructor : Text
  fields : List α
  deriving Repr, DecidableEq

namespace Implementations

variable {α : Type}

/-- The path of a variant whose enum may be written `Self`. -/
def resolve (enum path : Text) : Text :=
  if Text.startsWith path "Self::" then enum ++ path.drop 4 else path

/-- What `from` makes of a value; nothing where the text does not fit the declarations. -/
def embed? (impls : Implementations) (layout? : Text → Option Layout) (value : Value α) :
    Option (Value α) := do
  if impls.parameter.path ≠ value.constructor then none
  let bound ← (← layout? value.constructor).bind? impls.parameter.arguments value.fields
  let path := resolve impls.enum impls.embedded.path
  return ⟨path, ← (← layout? path).build? impls.embedded.arguments bound⟩

/-- What `try_from` makes of a value: a struct, or the value as the error if its variant is
another one. -/
def extract? (impls : Implementations) (layout? : Text → Option Layout) (value : Value α) :
    Option (Except (Value α) (Value α)) := do
  if impls.matched.path ≠ value.constructor then return .error value
  let bound ← (← layout? value.constructor).bind? impls.matched.arguments value.fields
  let path := impls.extracted.path
  return .ok ⟨path, ← (← layout? path).build? impls.extracted.arguments bound⟩

end Implementations

end EnumExtract
