/-
  EnumExtract.Output.Naming
  ────────────────────────────────
  The names of the structs that an enum's variants are extracted into.
-/
import EnumExtract.Schema.ExtractOptions

namespace EnumExtract

/-- The struct names chosen for one enum, in the order of its variants. -/
structure GeneratedNames where
  /-- The name of the enum. -/
  enum : Text
  /-- Each variant that is extracted, with the name of its struct. -/
  names : List (Text × Text)
  deriving Repr, DecidableEq

namespace GeneratedNames

/-- The name of the struct made of a variant; of several entries for the variant the last one
counts. -/
def identifier? (g : GeneratedNames) (variant : Text) : Option Text :=
  g.names.reverse.lookup variant

/-- The variant whose struct has the name `identifier`. -/
def owner? (identifier : Text) (names : List (Text × Text)) : Option Text :=
  (names.find? (·.2 = identifier)).map (·.1)

/-- The names chosen so far with that of one more variant, which must be neither the enum's
nor one of them. -/
def add (enum : Text) (options : ExtractOptions) (names : List (Text × Text)) (variant : Variant) :
    Except Fault (List (Text × Text)) :=
  let identifier := options.structName variant.name
  if identifier = enum then
    .error ⟨.collidesWithEnum identifier variant.name enum, variant.index, none⟩
  else
    match owner? identifier names with
    | some owner =>
        .error ⟨.collidesWithVariant identifier variant.name owner, variant.index, none⟩
    | none => .ok (names ++ [(variant.name, identifier)])

/-- The names for an enum's variants, those excluded left out.  The first variant whose name
collides is a fault. -/
def ofEnum (enum : EnumDecl) (options : ExtractOptions) : Except Fault GeneratedNames := do
  let extracted := enum.variants.filter (!·.excluded)
  return ⟨enum.name, ← extracted.foldlM (add enum.name options) []⟩

end GeneratedNames

end EnumExtract
