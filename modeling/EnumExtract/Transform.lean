/-
  EnumExtract.Transform
  ────────────────────────────────
  The transformation of a source: for every annotated declaration a block is
  generated, inserted right after the declaration, and the directives are
  taken out.  All other text is kept.

  `plan` finds the blocks and the edits; making the edits is all that is left.
  The first fault ends the whole, so that a source is transformed entirely or
  not at all.
-/
import EnumExtract.Output.Block
import EnumExtract.Schema.BindingTarget

namespace EnumExtract

/-! ## §1. One declaration. -/

/-- What one annotated declaration calls for. -/
structure Change where
  /-- The edits that shorten derives. -/
  deriveEdits : List Edit
  /-- Where the directives stand that are taken out. -/
  directives : List Span
  /-- The offset just past the declaration, where the block goes. -/
  stop : Nat
  /-- The indentation of the declaration, which its block shares. -/
  indent : Text
  block : Block
  deriving Repr, DecidableEq

namespace Change

/-- The edits of `source` that make the change. -/
def edits (source : Text) (change : Change) : List Edit :=
  change.deriveEdits ++ change.directives.map source.removal
    ++ [⟨change.stop, change.stop, change.block.insertion change.indent⟩]

/-- The change for a marked enum. -/
def ofEnum (source : Text) (item : Item) : Except Fault Change := do
  let enum ← EnumDecl.read source item
  let block ← Block.extractAll enum (← ExtractOptions.ofAttributes item.attrs)
  return ⟨enum.deriveEdits, enum.directives, enum.stop, source.lineIndent item.start, block⟩

/-- The trait that a bound struct may derive as a mark of its own. -/
def bindTrait : Text := "Variant"

/-- The change for a bound struct. -/
def ofBinding (source : Text) (item : Item) (target : BindingTarget)
    (own schema : List EnumSource) : Except Fault Change := do
  let struct ← StructDecl.read source item
  let enum ← Catalog.resolve target.path own schema target.attr.start
  let block ← Block.bindOne struct enum target.path target.variant target.attr.start
  let deriveEdits ← item.attrs.filterMapM (·.withoutTrait? source bindTrait)
  let directive : Span := ⟨target.attr.start, target.attr.stop⟩
  return ⟨deriveEdits, [directive], struct.stop, source.lineIndent item.start, block⟩

/-- The change for an item, if it is annotated. -/
def ofItem? (source : Text) (own schema : List EnumSource) (item : Item) :
    Except Fault (Option Change) := do
  if ← EnumDecl.isMarked source item then return some (← ofEnum source item)
  if item.kind ≠ .struct then return none
  match ← BindingTarget.ofAttributes? item.attrs with
  | some target => return some (← ofBinding source item target own schema)
  | none => return none

end Change

/-! ## §2. A whole source. -/

/-- The changes of a source, one for each annotated declaration, in order.  `label` names the
source in messages; `schema` are the enums of other files that a binding may name. -/
def plan (source : Text) (schema : List EnumSource) (label : Text) :
    Except Fault (List Change) := do
  let items ← source.items
  items.filterMapM (Change.ofItem? source (EnumSource.ofItems label source items) schema)

/-- A transformed source and the blocks generated for it, in order. -/
structure Rendered where
  text : Text
  blocks : List Block
  deriving Repr, DecidableEq

/-- The source with all changes made. -/
def transform (source : Text) (schema : List EnumSource) (label : Text) :
    Except Fault Rendered := do
  let changes ← plan source schema label
  return ⟨source.applyEdits (changes.flatMap (Change.edits source)), changes.map (·.block)⟩

end EnumExtract
