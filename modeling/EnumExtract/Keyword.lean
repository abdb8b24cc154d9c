/-
  EnumExtract.Keyword
  ────────────────────────────────
  The closed vocabularies of the domain: the two kinds of declaration, the
  three shapes that a list of fields can have, and the generator's own name.
-/
import EnumExtract.Text.Basic

namespace EnumExtract

/-- The name that the generator gives itself in what it writes. -/
def generatorName : Text := "variantgen"

/-- The declarations that are read. -/
inductive DeclKind where
  | enum
  | struct
  deriving Repr, DecidableEq

namespace DeclKind

/-- The keyword that introduces the declaration. -/
def keyword : DeclKind → Text
  | .enum => "enum"
  | .struct => "struct"

/-- The declaration that a word introduces. -/
def ofKeyword? (word : Text) : Option DeclKind :=
  if word = "enum" then some .enum
  else if word = "struct" then some .struct
  else none

end DeclKind

/-- The layouts of a declaration's fields. -/
inductive ShapeKind where
  /-- No fields. -/
  | unit
  /-- Fields known by their position. -/
  | positional
  /-- Fields known by their names. -/
  | named
  deriving Repr, DecidableEq

namespace ShapeKind

/-- The word for the layout. -/
def name : ShapeKind → Text
  | .unit => "unit"
  | .positional => "positional"
  | .named => "named"

/-- The layout that a word stands for. -/
def ofName? (word : Text) : Option ShapeKind :=
  [unit, positional, named].find? (·.name = word)

end ShapeKind

end EnumExtract
