/-
  EnumExtract.Main
  ────────────────────────────────
  The command line program.  It looks at every place that the paths among its
  arguments lead through, runs the command on the file tree that this gives,
  makes the changes, prints, and answers with the exit status.
-/
import EnumExtract.Command.Run

namespace EnumExtract

/-- The places that a path leads through, the last one included. -/
def Path.visited (cwd : Place) (p : Path) : List Place :=
  (List.range (p.parts.length + 1)).map fun count =>
    Path.resolve cwd { p with parts := p.parts.take count }

/-- The paths that a request names. -/
def Request.paths : Request → List Path
  | .run settings => settings.input :: settings.output :: settings.schemas
  | _ => []

/-- A place as the operating system writes it. -/
def Place.name (place : Place) : String :=
  String.ofList ('/' :: Text.join "/" place)

/-- What is at a place. -/
def Place.look (place : Place) : IO (Option Node) := do
  let path := (← IO.currentDir) / Place.name place
  if ← path.isDir then return some .directory
  if ← path.pathExists then return some (.file (← IO.FS.readBinFile path).toList)
  return none

/-- The file tree as far as some paths lead through it. -/
def FileTree.around (paths : List Path) : IO FileTree := do
  let cwd := (Path.ofText (← IO.currentDir).toString).parts
  let mut tree : FileTree := ⟨cwd, []⟩
  for place in cwd :: paths.flatMap (Path.visited cwd) do
    if let some node ← Place.look place then tree := tree.set place node
  return tree

/-- What a tree holds that an earlier one did not, or held otherwise. -/
def FileTree.changesSince (tree earlier : FileTree) : List (Place × Node) :=
  tree.nodes.filter fun entry => earlier.node? entry.1 ≠ some entry.2

/-- Bring about a change of the file tree. -/
def FileTree.apply : Place × Node → IO Unit
  | (place, .directory) => IO.FS.createDir (Place.name place)
  | (place, .file content) => IO.FS.writeBinFile (Place.name place) ⟨content.toArray⟩

end EnumExtract

open EnumExtract in
/-- Run the command on the arguments of the program. -/
def main (arguments : List String) : IO UInt32 := do
  let arguments := arguments.map String.toList
  let tree ← FileTree.around (Request.ofArguments arguments).paths
  let outcome := Command.run tree arguments
  for change in outcome.tree.changesSince tree do
    FileTree.apply change
  IO.print (String.ofList outcome.stdout)
  IO.eprint (String.ofList outcome.stderr)
  return UInt32.ofNat outcome.exit
