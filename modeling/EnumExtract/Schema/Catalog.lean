/-
  EnumExtract.Schema.Catalog
  ────────────────────────────────
  Catalogs of enums: every enum of some files, read only when a binding names
  it.  A path is looked up by its last segment; where several enums share it,
  those count whose module path ends as the written path does.
-/
import EnumExtract.Schema.EnumDecl
import EnumExtract.Schema.StructDecl

namespace EnumExtract

/-- An enum of a file, not read yet. -/
structure EnumSource where
  /-- The name of the file. -/
  label : Text
  /-- The whole text of the file. -/
  text : Text
  item : Item
  deriving Repr, DecidableEq

namespace EnumSource

/-- The enums among the items of a file. -/
def ofItems (label text : Text) (items : List Item) : List EnumSource :=
  (items.filter (·.kind = .enum)).map (⟨label, text, ·⟩)

/-- The enums of a file. -/
def ofFile (label text : Text) : Except Fault (List EnumSource) :=
  return ofItems label text (← text.items)

/-- Where the enum is declared: the file and the path in it. -/
def place (source : EnumSource) : Text :=
  source.label ++ ": " ++ Text.join "::" source.item.path

end EnumSource

namespace Catalog

/-- The leading segments that stand for a place rather than for a module. -/
def roots : List Text :=
  ["", "crate", "self", "super"]

/-- The segments without the roots in front; the last segment always stays. -/
def dropRoots : List Text → List Text
  | root :: next :: rest =>
      if roots.contains root then dropRoots (next :: rest) else root :: next :: rest
  | segments => segments

/-- The enums that answer to a path: those with its last segment for a name, and of several
such only those whose own path ends with the segments, if there are any. -/
def candidates (segments : List Text) (catalog : List EnumSource) : List EnumSource :=
  let named := catalog.filter (·.item.name = segments.getLastD [])
  if named.length ≤ 1 then named
  else
    let ending := named.filter fun source => segments.isSuffixOf source.item.path
    if ending.isEmpty then named else ending

/-- The one enum of a catalog that answers to a path; several are ambiguous. -/
def lookup? (path : Text) (catalog : List EnumSource) : Except Cause (Option EnumSource) :=
  match candidates (dropRoots (Text.segments path)) catalog with
  | [] => .ok none
  | [source] => .ok (some source)
  | several => .error (.ambiguousEnum path (sorted Text.precedes (several.map (·.place))))

/-- A failure is reported at `index`. -/
def reportAt {α : Type} (index : Nat) : Except Cause α → Except Fault α
  | .ok a => .ok a
  | .error cause => .error ⟨cause, index, none⟩

/-- The enum of a schema file, its faults being reported at `index` of the input. -/
def readSchema (source : EnumSource) (index : Nat) : Except Fault EnumDecl :=
  match EnumDecl.read source.text source.item with
  | .ok decl => .ok decl
  | .error fault => .error ⟨.inSchema fault.cause source.item.name source.label, index, none⟩

/-- The enum that a path names, faults being reported at `index`.  The input's own enums are
looked through first, then those of the schema files. -/
def resolve (path : Text) (own schema : List EnumSource) (index : Nat) : Except Fault EnumDecl := do
  match ← reportAt index (lookup? path own) with
  | some source => EnumDecl.read source.text source.item
  | none =>
      match ← reportAt index (lookup? path schema) with
      | some source => readSchema source index
      | none => .error ⟨.unknownEnum path, index, none⟩

end Catalog

/-- The variant of an enum that a struct is bound to: it has to exist, and its shape to be
the struct's.  Faults are reported at `index`. -/
def EnumDecl.matching (enum : EnumDecl) (struct : StructDecl) (variant : Text) (index : Nat) :
    Except Fault Variant :=
  match Variant.find? variant enum.variants with
  | none => .error ⟨.unknownVariant enum.name variant, index, none⟩
  | some found =>
      match found.shape.difference? struct.shape with
      | none => .ok found
      | some difference =>
          .error ⟨.shapeMismatch struct.name enum.name variant difference, index, none⟩

end EnumExtract
