/-
  EnumExtract.Command.Run
  ────────────────────────────────
  One run of the command: from a file tree and arguments to an exit status,
  what is printed, and the file tree afterwards.

  Without `--check` the output file is written unless it holds the generated
  content already; with `--check` it is only compared.

  Arguments may hold bytes that are no text.  The file system takes them back as
  they were given, so a file with such a name can be read; but its name cannot be
  encoded where it is written down, and that error nothing catches.
-/
import EnumExtract.Command.Config
import EnumExtract.Summary

namespace EnumExtract

/-! ## §1. Outcomes. -/

/-- What a run comes to. -/
structure Outcome where
  exit : Nat
  stdout : Text
  stderr : Text
  tree : FileTree
  deriving Repr, DecidableEq

/-- How a run ends: with an outcome, or in an error that nothing catches. -/
inductive Ending where
  | outcome (o : Outcome)
  | uncaught (tree : FileTree)
  deriving Repr, DecidableEq

namespace Ending

def exit : Ending → Nat
  | outcome o => o.exit
  | uncaught _ => 1

def tree : Ending → FileTree
  | outcome o => o.tree
  | uncaught tree => tree

/-- The outcome, as far as there is one. -/
def result : Ending → Outcome
  | outcome o => o
  | uncaught tree => ⟨1, [], [], tree⟩

end Ending

/-- Lines, each with its line feed. -/
def Text.ofLines (lines : List Text) : Text :=
  lines.flatMap (· ++ "\n")

/-- What becomes of the output file. -/
inductive OutputStatus where
  | generated
  | unchanged
  | upToDate
  | stale
  | missing
  deriving Repr, DecidableEq

/-- The word for a status. -/
def OutputStatus.name : OutputStatus → Text
  | .generated => "generated"
  | .unchanged => "unchanged"
  | .upToDate => "up-to-date"
  | .stale => "stale"
  | .missing => "missing"

/-! ## §2. Encoding. -/

/-- What text can be written and printed. -/
structure Encoding where
  /-- The characters that stand for bytes of arguments which are no text.  The text of a file
  holds none of them. -/
  foreign : Char → Bool
  /-- The standard output refuses them, as files do. -/
  strict : Bool

namespace Encoding

/-- All text can be encoded. -/
def total : Encoding :=
  ⟨fun _ => false, false⟩

def encodes (e : Encoding) (t : Text) : Bool :=
  !t.any e.foreign

def prints (e : Encoding) (t : Text) : Bool :=
  !e.strict || e.encodes t

/-- The end of a run whose last step is to print. -/
def ending (e : Encoding) (o : Outcome) : Ending :=
  if e.prints o.stdout then .outcome o else .uncaught o.tree

end Encoding

/-! ## §3. Reading and writing. -/

/-- Why the content of a file cannot be used. -/
inductive ReadError where
  | access (error : AccessError)
  | encoding (malformed : Utf8.Malformed)
  deriving Repr, DecidableEq

/-- The error in words. -/
def ReadError.message : ReadError → Text
  | .access e => e.message
  | .encoding m => m.message

namespace FileTree

/-- The text of a file, its line ends as line feeds. -/
def readText (tree : FileTree) (path : Path) : Except ReadError Text :=
  match tree.read path with
  | .error e => .error (.access e)
  | .ok bytes =>
      match Utf8.decode bytes with
      | .error m => .error (.encoding m)
      | .ok text => .ok (Text.normalizeLineEnds text)

/-- The file that a path leads to, labelled by the path. -/
def readSource (tree : FileTree) (path : Path) : Except ReadError SourceFile :=
  (tree.readText path).map (⟨path.text, ·⟩)

/-- The output file holds the content, differs from it, or is not there. -/
def compare (tree : FileTree) (path : Path) (content : Text) : Except ReadError OutputStatus :=
  if (tree.find? path).isNone then .ok .missing
  else (tree.readText path).map fun text => if text = content then .upToDate else .stale

end FileTree

/-- Why a text is not written. -/
inductive WriteError where
  | access (error : AccessError)
  | encoding
  deriving Repr, DecidableEq

/-- The tree with a text in the file that a path leads to, the directories on the way made first.
The file is there and empty before the text is encoded. -/
def FileTree.writeText (tree : FileTree) (e : Encoding) (path : Path) (content : Text) :
    Option WriteError × FileTree :=
  match tree.writeWithParents path [] with
  | (some error, made) => (some (.access error), made)
  | (none, opened) =>
      if e.encodes content then (opened.write path content.toUtf8).map (·.map .access) id
      else (some .encoding, opened)

/-! ## §4. Runs. -/

namespace Command

/-- The name that the command calls itself. -/
def program : Text := generatorName ++ ".py"

/-- The line that says how the command is used. -/
def usage : Text :=
  "usage: " ++ program ++ " [-h] --in INPUT --out OUTPUT [--schema SCHEMA] [--check]"

/-- The answer to a request for help. -/
def helpLines : List Text :=
  [usage,
   "",
   "Extract Rust enum variants into standalone structs",
   "",
   "options:",
   "  -h, --help       show this help message and exit",
   "  --in INPUT       Rust source to transform",
   "  --out OUTPUT     Generated Rust source",
   "  --schema SCHEMA  Extra source scanned for #[variant_of] target enums",
   "                   (repeatable)",
   "  --check          Check output is up to date"]

/-- A fault with the place it points to: in the schema file it names, or else in the input. -/
def located (source : SourceFile) (schemas : List SourceFile) (fault : Fault) : Text :=
  let file := (fault.source.bind fun label => schemas.find? (·.label = label)).getD source
  fault.diagnostic.located file.label file.text

/-- What is said of an output file that does not hold the generated content. -/
def complaint (output : Path) (what : Text) : Text :=
  output.text ++ " is " ++ what ++ " (run " ++ generatorName ++ ")\n"

/-- The end of a run that checks the output file.  `lines` have been printed.  An error quotes its
path, so it can be printed in any case. -/
def check (e : Encoding) (tree : FileTree) (output : Path) (file : GeneratedFile)
    (lines : List Text) : Ending :=
  match tree.compare output file.content with
  | .error error =>
      .outcome ⟨1, Text.ofLines (lines ++ ["Error: " ++ error.message]), [], tree⟩
  | .ok .missing => .outcome ⟨1, Text.ofLines lines, complaint output "missing", tree⟩
  | .ok .stale => .outcome ⟨1, Text.ofLines lines, complaint output "out of date", tree⟩
  | .ok _ => e.ending ⟨0, Text.ofLines (lines ++ ["up-to-date: " ++ output.text]), [], tree⟩

/-- The end of a run that has brought about `status`. -/
def finish (tree : FileTree) (source : SourceFile) (output : Path) (file : GeneratedFile)
    (lines : List Text) (status : OutputStatus) : Outcome :=
  let summary := Summary.ofFile source.label output.text status.name file
  ⟨0, Text.ofLines (lines ++ [status.name ++ ": " ++ output.text]) ++ summary.report, [], tree⟩

/-- The end of a run that writes the output file.  `lines` have been printed. -/
def write (e : Encoding) (tree : FileTree) (source : SourceFile) (output : Path)
    (file : GeneratedFile) (lines : List Text) : Ending :=
  match tree.compare output file.content with
  | .error error =>
      .outcome ⟨1, Text.ofLines (lines ++ ["Error: " ++ error.message]), [], tree⟩
  | .ok .upToDate => e.ending (finish tree source output file lines .unchanged)
  | .ok _ =>
      match tree.writeText e output file.content with
      | (some (.access error), after) =>
          .outcome ⟨1, Text.ofLines (lines ++ ["Error: " ++ error.message]), [], after⟩
      | (some .encoding, after) => .uncaught after
      | (none, after) => e.ending (finish after source output file lines .generated)

/-- A run on settings that have been validated. -/
def generate (e : Encoding) (tree : FileTree) (s : Settings) : Ending :=
  let parsing : Text := "Parsing: " ++ s.input.text
  let read : Except ReadError (SourceFile × List SourceFile) := do
    let source ← tree.readSource s.input
    return (source, ← s.schemas.mapM tree.readSource)
  if !e.prints parsing then .uncaught tree
  else
    match read with
    | .error error => .outcome ⟨1, Text.ofLines [parsing, "Error: " ++ error.message], [], tree⟩
    | .ok (source, schemas) =>
        let schemaLines : List Text :=
          if schemas.isEmpty then [] else ["  Schema: " ++ Text.ofNat schemas.length ++ " files"]
        let opening := parsing :: schemaLines
        match GeneratedFile.generate source schemas with
        | .error fault =>
            .outcome ⟨1, Text.ofLines opening, located source schemas fault ++ "\n", tree⟩
        | .ok file =>
            let declarations : Text :=
              "  Declarations: " ++ Text.ofNat (Summary.countOf .extract file.blocks) ++ " enums, "
                ++ Text.ofNat (Summary.countOf .bind file.blocks) ++ " bound structs"
            let lines := opening ++ [declarations]
            if s.check then check e tree s.output file lines
            else write e tree source s.output file lines

/-- A run on a list of arguments. -/
def runWith (e : Encoding) (tree : FileTree) (arguments : List Text) : Ending :=
  match Request.ofArguments arguments with
  | .help => .outcome ⟨0, Text.ofLines helpLines, [], tree⟩
  | .refused error =>
      .outcome ⟨2, [], Text.ofLines [usage, program ++ ": error: " ++ error.message], tree⟩
  | .run settings =>
      match settings.validate tree with
      | .error error => e.ending ⟨1, Text.ofLines (ConfigNotice.ofError error).lines, [], tree⟩
      | .ok () => generate e tree settings

/-- A run on arguments that are text, in which there is nothing that cannot be encoded. -/
def run (tree : FileTree) (arguments : List Text) : Outcome :=
  (runWith .total tree arguments).result

end Command

end EnumExtract
