/-
  EnumExtract.Output.Conversion
  ────────────────────────────────
  Conversions between a struct and the variant it stands for: into the enum
  always, out of it when the value is of that variant, and a marker trait.

  One pattern serves as a pattern and as an expression: what it binds on one
  side it builds on the other.
-/
import EnumExtract.Schema.StructDecl

namespace EnumExtract

/-! ## §1. Patterns. -/

/-- What follows the name of a struct or variant to take its fields apart or to put them
together. -/
inductive Pattern where
  /-- Empty braces, which fit a unit and an empty list of either kind. -/
  | empty
  /-- As many numbered names, in parentheses. -/
  | tuple (count : Nat)
  /-- The names of the fields, in braces. -/
  | braces (names : List Text)
  deriving Repr, DecidableEq

namespace Pattern

/-- The name bound to the field at a position. -/
def positionName (position : Nat) : Text :=
  "_" ++ Text.ofNat position

/-- The pattern as it is printed after a name. -/
def text : Pattern → Text
  | .empty => " \x7b\x7d"
  | .tuple count => "(" ++ Text.join ", " ((List.range count).map positionName) ++ ")"
  | .braces names => " \x7b " ++ Text.join ", " names ++ " \x7d"

end Pattern

/-- The pattern for values of a shape.  In a shape that is read as a named one every field has a name
(`Shape.pattern_classify`), so that the word for a missing one is never printed. -/
def Shape.pattern (shape : Shape) : Pattern :=
  match shape.kind with
  | .unit => .empty
  | .positional => .tuple shape.fields.length
  | .named => .braces (shape.fields.map (ShapeDifference.shownName ·.name))

/-! ## §2. Conversions. -/

/-- A struct and the variant it stands for, which have the same shape. -/
structure Conversion where
  /-- The name of the struct. -/
  struct : Text
  /-- The path of the enum as generated code writes it. -/
  enum : Text
  /-- The name of the variant. -/
  variant : Text
  shape : Shape
  deriving Repr, DecidableEq

namespace Conversion

/-- The trait that marks a struct as a variant of an enum. -/
def markerTrait : Text := "::variant_traits::Variant"

/-- The lines of the implementations. -/
def lines (c : Conversion) : List Text :=
  let pattern := c.shape.pattern.text
  ["impl ::std::convert::From<" ++ c.struct ++ "> for " ++ c.enum ++ " \x7b",
   "    fn from(" ++ c.struct ++ pattern ++ ": " ++ c.struct ++ ") -> Self \x7b",
   "        Self::" ++ c.variant ++ pattern,
   "    \x7d",
   "\x7d",
   "impl ::std::convert::TryFrom<" ++ c.enum ++ "> for " ++ c.struct ++ " \x7b",
   "    type Error = " ++ c.enum ++ ";",
   "    fn try_from(value: " ++ c.enum ++ ") -> ::std::result::Result<Self, Self::Error> \x7b",
   "        if let " ++ c.enum ++ "::" ++ c.variant ++ pattern ++ " = value \x7b Ok("
     ++ c.struct ++ pattern ++ ") \x7d else \x7b Err(value) \x7d",
   "    \x7d",
   "\x7d",
   "impl " ++ markerTrait ++ "<" ++ c.enum ++ "> for " ++ c.struct ++ " \x7b\x7d"]

/-- The list with the conversion put where its struct already has one, or at the end. -/
def put (c : Conversion) : List Conversion → List Conversion
  | [] => [c]
  | d :: rest => if d.struct = c.struct then c :: rest else d :: put c rest

/-- One conversion for each struct, the last one given, where the first one stood. -/
def perStruct (conversions : List Conversion) : List Conversion :=
  conversions.foldl (fun known c => put c known) []

/-- The conversion of the struct `struct`, if there is one, and the others. -/
def take (struct : Text) (conversions : List Conversion) :
    Option Conversion × List Conversion :=
  (conversions.find? (·.struct = struct), conversions.filter (·.struct ≠ struct))

end Conversion

end EnumExtract
