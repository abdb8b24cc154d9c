import EnumExtract.Main
import EnumExtract.Proofs.Transformation
import EnumExtract.Proofs.Discriminants
import EnumExtract.Proofs.Extraction
import EnumExtract.Proofs.Conversions
import EnumExtract.Proofs.Outcome
import EnumExtract.Proofs.EndMarkers
import EnumExtract.Proofs.CommentsAsBlanks
import EnumExtract.Proofs.FixedPoint
import EnumExtract.Proofs.PassThrough
import EnumExtract.Proofs.StructNames
import EnumExtract.Proofs.Forwarding
import EnumExtract.Proofs.Binding
import EnumExtract.Proofs.Lookup
import EnumExtract.Proofs.Opaque
import EnumExtract.Proofs.Locality
import EnumExtract.Proofs.Grammar.Attributes
import EnumExtract.Proofs.Grammar.Enums
import EnumExtract.Proofs.Grammar.Remarks
import EnumExtract.Proofs.Grammar.Leaves
import EnumExtract.Proofs.Grammar.Bodies
import EnumExtract.Proofs.Grammar.Forests
import EnumExtract.Proofs.Collapse
import EnumExtract.Proofs.Grammar.Collapsed
import EnumExtract.Proofs.Grammar.PrintedStructs
import EnumExtract.Proofs.Grammar.TypeLists
import EnumExtract.Proofs.Grammar.TypeNesting
import EnumExtract.Proofs.Digest
import EnumExtract.Proofs.Grammar.OptionLists
import EnumExtract.Proofs.Grammar.OptionForms
import EnumExtract.Proofs.Grammar.BindingTargets
import EnumExtract.Proofs.EditOrder
import EnumExtract.Proofs.Collisions
import EnumExtract.Proofs.Respacing
import EnumExtract.Proofs.Grammar.TraitLists
import EnumExtract.Proofs.Grammar.Derives
import EnumExtract.Proofs.Spans
import EnumExtract.Proofs.Nesting
import EnumExtract.Proofs.Grammar.WrittenLexemes
import EnumExtract.Proofs.Coverage
import EnumExtract.Proofs.Progress
import EnumExtract.Proofs.Locations
