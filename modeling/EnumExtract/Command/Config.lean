/-
  EnumExtract.Command.Config
  ────────────────────────────────
  Configurations: arguments that have been checked against the file tree.  The
  input and the schemas are files, and the output is not the input.
-/
import EnumExtract.Command.Request
import EnumExtract.Command.FileTree

namespace EnumExtract

/-- The class of a refused configuration. -/
inductive ConfigCode where
  | pathNotFound
  | sameInputOutput
  deriving Repr, DecidableEq

namespace ConfigCode

/-- The code as it is printed. -/
def name : ConfigCode → Text
  | .pathNotFound => "PATH_NOT_FOUND"
  | .sameInputOutput => "SAME_INPUT_OUTPUT"

/-- The code that is printed as `word`. -/
def ofName? (word : Text) : Option ConfigCode :=
  [pathNotFound, sameInputOutput].find? (·.name = word)

end ConfigCode

/-- Why a configuration is refused. -/
inductive ConfigError where
  | pathNotFound (flag : Flag) (path : Path)
  | sameInputOutput (output : Path)
  deriving Repr, DecidableEq

namespace ConfigError

/-- The class of the error. -/
def code : ConfigError → ConfigCode
  | .pathNotFound .. => .pathNotFound
  | .sameInputOutput .. => .sameInputOutput

/-- The error in words. -/
def message : ConfigError → Text
  | .pathNotFound flag path => "Path for " ++ flag.title ++ " does not exist: " ++ path.text
  | .sameInputOutput output => "--out must differ from --in: " ++ output.text

/-- What to do about it. -/
def hint : ConfigError → Text
  | .pathNotFound .schema _ => "Pass the Rust file that declares the enum named in #[variant_of]."
  | .pathNotFound _ _ => "Provide an existing Rust source file for this flag."
  | .sameInputOutput _ => "Write the generated source to a separate file, e.g. under build/."

end ConfigError

/-- A refused configuration in its printed parts. -/
structure ConfigNotice where
  code : ConfigCode
  message : Text
  hint : Option Text
  deriving Repr, DecidableEq

namespace ConfigNotice

/-- The notice with the given parts; a code that there is not is refused. -/
def ofParts (code message : Text) (hint : Option Text) : Except Text ConfigNotice :=
  match ConfigCode.ofName? code with
  | some known => .ok ⟨known, message, hint⟩
  | none => .error ("Unknown config error code: " ++ code)

/-- The printed parts of an error. -/
def ofError (e : ConfigError) : ConfigNotice :=
  ⟨e.code, e.message, some e.hint⟩

/-- The lines that are printed. -/
def lines (n : ConfigNotice) : List Text :=
  let hintLines : List Text := n.hint.elim [] fun hint => ["Hint: " ++ hint]
  ("Config error [" ++ n.code.name ++ "]: " ++ n.message) :: hintLines

end ConfigNotice

namespace Settings

/-- The path of an option has to lead to a file. -/
def requireFile (tree : FileTree) (flag : Flag) (path : Path) : Except ConfigError Unit :=
  if tree.isFile path then .ok () else .error (.pathNotFound flag path)

/-- The settings are fit to run: the input is looked for first, then the schemas in order, and
then the output is compared with the input. -/
def validate (tree : FileTree) (s : Settings) : Except ConfigError Unit := do
  requireFile tree .input s.input
  s.schemas.forM (requireFile tree .schema)
  if s.output.resolve tree.cwd = s.input.resolve tree.cwd then .error (.sameInputOutput s.output)

end Settings

end EnumExtract
