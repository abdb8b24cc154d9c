/-
  EnumExtract.Output.Block
  ────────────────────────────────
  Blocks: everything that is generated for one annotated declaration, between
  two marker comments.
-/
import EnumExtract.Output.Conversion
import EnumExtract.Output.Naming
import EnumExtract.Output.Record
import EnumExtract.Schema.Catalog

namespace EnumExtract

/-- Which annotation a block is generated for. -/
inductive BlockKind where
  /-- An enum whose variants are extracted. -/
  | extract
  /-- A struct that is bound to a variant. -/
  | bind
  deriving Repr, DecidableEq

namespace BlockKind

/-- The word for the kind. -/
def name : BlockKind → Text
  | .extract => "extract"
  | .bind => "bind"

/-- The kind that a word stands for. -/
def ofName? (word : Text) : Option BlockKind :=
  [extract, bind].find? (·.name = word)

end BlockKind

/-- What is generated for one declaration. -/
structure Block where
  kind : BlockKind
  /-- The name of the annotated declaration. -/
  target : Text
  /-- The extracted structs, in the order of the variants. -/
  structs : List StructDecl
  conversions : List Conversion
  /-- The names of the variants that are not extracted. -/
  excluded : List Text
  deriving Repr, DecidableEq

namespace Block

/-! ## §1. Making blocks. -/

/-- The struct made of a variant under a name, and its conversion to the enum. -/
def made (enum : EnumDecl) (variant : Variant) (name : Text) (metadata : List Metadata) :
    StructDecl × Conversion :=
  (⟨name, enum.visibility, variant.shape, metadata, 0, 0⟩,
   ⟨name, enum.name, variant.name, variant.shape⟩)

/-- What is made of a variant that is not excluded, under the name that has been chosen for it.
For every such variant of the enum one has been chosen, so that the look-up leaves none out. -/
def extracted? (enum : EnumDecl) (names : GeneratedNames) (variant : Variant) :
    Option (StructDecl × Conversion) := do
  let metadata ← variant.structMetadata? enum.metadata
  let name ← names.identifier? variant.name
  return made enum variant name metadata

/-- Every variant that is not excluded as a struct of its own, with a conversion unless the
options leave them out.  The names are settled first. -/
def extractAll (enum : EnumDecl) (options : ExtractOptions) : Except Fault Block := do
  let names ← GeneratedNames.ofEnum enum options
  let extracted := enum.variants.filterMap (extracted? enum names)
  return {
    kind := .extract
    target := enum.name
    structs := extracted.map (·.1)
    conversions := if options.noImpl then [] else extracted.map (·.2)
    excluded := (enum.variants.filter (·.excluded)).map (·.name) }

/-- The conversion between a struct and the variant it is bound to, by default the one of
its own name; an empty name names no variant.  `path` is the enum as generated code writes
it. -/
def bindOne (struct : StructDecl) (enum : EnumDecl) (path : Text) (variant? : Option Text)
    (index : Nat) : Except Fault Block := do
  let variant := (variant?.filter (!·.isEmpty)).getD struct.name
  let _ ← enum.matching struct variant index
  return ⟨.bind, struct.name, [], [⟨struct.name, path, variant, struct.shape⟩], []⟩

/-! ## §2. Blocks as text. -/

/-- The groups of lines of a block: each struct with its conversion after it, then the
conversions of other structs. -/
def groups : List StructDecl → List Conversion → List (List Text)
  | [], conversions => conversions.map (·.lines)
  | struct :: rest, conversions =>
      let (own, others) := Conversion.take struct.name conversions
      (struct.lines ++ own.elim [] (·.lines)) :: groups rest others

/-- The lines of a block: the groups with an empty line between them, inside markers that
name the target. -/
def lines (block : Block) : List Text :=
  let body := List.intercalate [[]] (groups block.structs (Conversion.perStruct block.conversions))
  ["// <" ++ generatorName ++ ": " ++ block.target ++ ">"] ++ body
    ++ ["// </" ++ generatorName ++ ": " ++ block.target ++ ">"]

/-- The text that is inserted after a declaration: two line feeds, then the lines of the
block, each that is not empty behind the indentation. -/
def insertion (block : Block) (indent : Text) : Text :=
  "\n\n" ++ Text.join "\n" (block.lines.map fun line =>
    if line.isEmpty then [] else indent ++ line)

end Block

end EnumExtract
