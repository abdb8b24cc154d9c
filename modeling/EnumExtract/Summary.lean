/-
  EnumExtract.Summary
  ────────────────────────────────
  The report on a generated file.
-/
import EnumExtract.GeneratedFile

namespace EnumExtract

/-- The figures of a report. -/
structure Summary where
  sourceLabel : Text
  outputLabel : Text
  /-- What became of the output file. -/
  status : Text
  /-- How many enums were extracted. -/
  enums : Int
  /-- How many structs were bound. -/
  boundStructs : Int
  /-- How many structs were made. -/
  structs : Int
  /-- How many structs have conversions. -/
  conversions : Int
  /-- The variants that were not extracted, each behind its enum and `::`. -/
  excluded : List Text
  /-- How many lines the file has. -/
  lineCount : Int
  deriving Repr, DecidableEq

namespace Summary

/-- How many of the blocks are of a kind. -/
def countOf (kind : BlockKind) (blocks : List Block) : Nat :=
  blocks.countP (·.kind = kind)

/-- The sum of a count over all blocks. -/
def total (count : Block → Nat) (blocks : List Block) : Nat :=
  blocks.foldr (fun block sum => count block + sum) 0

/-- The variants that the extracting blocks leave out. -/
def excludedIn (blocks : List Block) : List Text :=
  (blocks.filter (·.kind = .extract)).flatMap fun block =>
    block.excluded.map (block.target ++ "::" ++ ·)

/-- The figures of a generated file. -/
def ofFile (sourceLabel outputLabel status : Text) (file : GeneratedFile) : Summary where
  sourceLabel := sourceLabel
  outputLabel := outputLabel
  status := status
  enums := .ofNat (countOf .extract file.blocks)
  boundStructs := .ofNat (countOf .bind file.blocks)
  structs := .ofNat (total (·.structs.length) file.blocks)
  conversions := .ofNat (total (·.conversions.length) file.blocks)
  excluded := excludedIn file.blocks
  lineCount := .ofNat (Text.lineFeeds file.content)

/-- A line with a name, padded to 16 characters, and a figure, padded to 6. -/
def figure (name : Text) (n : Int) : Text :=
  "    " ++ Text.padEnd 16 name ++ Text.padStart 6 (Text.ofInt n)

/-- The report.  Its last line ends in a line feed. -/
def report (s : Summary) : Text :=
  let excludedLines : List Text :=
    if s.excluded.isEmpty then []
    else
      [figure "Excluded:" (.ofNat s.excluded.length)
        ++ "  (" ++ Text.join ", " s.excluded ++ ")"]
  let figures : List Text :=
    [generatorName ++ " " ++ GeneratedFile.version ++ " (" ++ s.status ++ "):",
     "",
     "  Source:     " ++ s.sourceLabel,
     "  Output:     " ++ s.outputLabel,
     "",
     "  Declarations:",
     figure "Enums:" s.enums,
     figure "Bound structs:" s.boundStructs,
     "",
     "  Generated:",
     figure "Structs:" s.structs,
     figure "Conversions:" s.conversions]
  let total : List Text :=
    ["", "  Total: " ++ Text.ofIntGrouped s.lineCount ++ " lines", ""]
  Text.join "\n" (figures ++ excludedLines ++ total)

end Summary

end EnumExtract
