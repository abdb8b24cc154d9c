/-
  EnumExtract.Command.Request
  ────────────────────────────────
  The arguments of the command line.

      --in PATH  --out PATH  [--schema PATH]…  [--check]  [-h | --help]

  An option that takes a value has it in the next argument or after an equals
  sign.  A long option may be shortened as long as it stays the only one.
  After `--` no argument is an option.  Of several values of `--in` or `--out`
  the last counts.  Help is given as soon as it is asked for, before anything
  after it is complained of.
-/
import EnumExtract.Command.Path
import EnumExtract.Text.Blank
import EnumExtract.Text.Digit
import EnumExtract.Text.Quoted

namespace EnumExtract

/-! ## §1. Options. -/

/-- The options. -/
inductive Flag where
  | help
  | input
  | output
  | schema
  | check
  deriving Repr, DecidableEq

namespace Flag

/-- Every option. -/
def all : List Flag :=
  [.help, .input, .output, .schema, .check]

/-- The long spelling. -/
def long : Flag → Text
  | .help => "--help"
  | .input => "--in"
  | .output => "--out"
  | .schema => "--schema"
  | .check => "--check"

/-- The option's name in messages. -/
def title : Flag → Text
  | .help => "-h/--help"
  | flag => flag.long

/-- The option takes a value. -/
def takesValue : Flag → Bool
  | .input | .output | .schema => true
  | .help | .check => false

/-- The options whose long spelling begins with `word`. -/
def beginningWith (word : Text) : List Flag :=
  all.filter (Text.startsWith ·.long word)

end Flag

/-! ## §2. Usage errors. -/

/-- What is wrong with a list of arguments. -/
inductive UsageError where
  | expectsValue (flag : Flag)
  | ignoredValue (flag : Flag) (value : Text)
  | ambiguous (argument : Text) (flags : List Flag)
  | missing (flags : List Flag)
  | unrecognized (arguments : List Text)
  deriving Repr, DecidableEq

/-- The error in words. -/
def UsageError.message : UsageError → Text
  | .expectsValue flag => "argument " ++ flag.title ++ ": expected one argument"
  | .ignoredValue flag value =>
      "argument " ++ flag.title ++ ": ignored explicit argument " ++ Text.quoted value
  | .ambiguous argument flags =>
      "ambiguous option: " ++ argument ++ " could match "
        ++ Text.join ", " (flags.map (·.long))
  | .missing flags =>
      "the following arguments are required: " ++ Text.join ", " (flags.map (·.title))
  | .unrecognized arguments => "unrecognized arguments: " ++ Text.join " " arguments

/-! ## §3. Single arguments. -/

/-- What an argument is taken for. -/
inductive Argument where
  /-- A value, or a word in a place where none is wanted. -/
  | value (text : Text)
  /-- `--`. -/
  | separator
  /-- An option, perhaps with a value after an equals sign. -/
  | option (flag : Flag) (attached : Option Text)
  /-- `-h` with something behind it, perhaps after an equals sign. -/
  | cluster (letters : Text)
  /-- An option that there is not. -/
  | unknown (text : Text)
  deriving Repr, DecidableEq

namespace Argument

/-- The text before the first equals sign, and the text after it if there is one. -/
def atEquals (t : Text) : Text × Option Text :=
  match t.dropWhile (· != '=') with
  | [] => (t, none)
  | _ :: rest => (t.takeWhile (· != '='), some rest)

/-- A negative decimal number, perhaps with a line feed behind it. -/
def isNegativeNumber (t : Text) : Bool :=
  match t with
  | '-' :: rest =>
      let rest := if rest.getLast? = some '\n' then rest.dropLast else rest
      let fraction := (rest.dropWhile isDecimalDigit)
      match fraction with
      | [] => !rest.isEmpty
      | '.' :: decimals => !decimals.isEmpty && decimals.all isDecimalDigit
      | _ => false
  | _ => false

/-- An argument that begins with a dash but is no option: a negative number or anything with a
space in it is a value. -/
def undashed (t : Text) : Argument :=
  if isNegativeNumber t || t.contains ' ' then .value t else .unknown t

/-- What an argument with two dashes in front is taken for: the one option whose long spelling
begins as it does up to an equals sign.  No long spelling begins with another one. -/
def classifyLong (t : Text) : Except UsageError Argument :=
  let (spelling, attached) := atEquals t
  match Flag.beginningWith spelling with
  | [] => .ok (undashed t)
  | [flag] => .ok (.option flag attached)
  | several => .error (.ambiguous t several)

/-- What an argument before any `--` is taken for. -/
def classify (t : Text) : Except UsageError Argument :=
  match t with
  | ['-', 'h'] => .ok (.option .help none)
  | '-' :: '-' :: _ => classifyLong t
  | '-' :: 'h' :: '=' :: letters => .ok (.cluster letters)
  | '-' :: 'h' :: letters => .ok (.cluster letters)
  | '-' :: _ :: _ => .ok (undashed t)
  | _ => .ok (.value t)

/-- What the arguments are taken for; after `--` all are values. -/
def classifyAll : List Text → Except UsageError (List Argument)
  | [] => .ok []
  | t :: rest =>
      if t = "--" then .ok (.separator :: rest.map .value)
      else
        match classify t with
        | .error e => .error e
        | .ok argument => (classifyAll rest).map (argument :: ·)

end Argument

/-! ## §4. Lists of arguments. -/

/-- What a run is told. -/
structure Settings where
  input : Path
  output : Path
  schemas : List Path
  check : Bool
  deriving Repr, DecidableEq

/-- What a command line asks for. -/
inductive Request where
  | help
  | refused (error : UsageError)
  | run (settings : Settings)
  deriving Repr, DecidableEq

namespace Request

/-- The arguments met so far. -/
structure Given where
  input : Option Path
  output : Option Path
  schemas : List Path
  check : Bool
  unrecognized : List Text

namespace Given

/-- Nothing yet. -/
def empty : Given :=
  ⟨none, none, [], false, []⟩

/-- One more value. -/
def setValue (given : Given) (flag : Flag) (value : Text) : Given :=
  match flag with
  | .input => { given with input := some (Path.ofText value) }
  | .output => { given with output := some (Path.ofText value) }
  | .schema => { given with schemas := given.schemas ++ [Path.ofText value] }
  | .help | .check => given

/-- One more argument that is not asked for. -/
def addUnrecognized (given : Given) (t : Text) : Given :=
  { given with unrecognized := given.unrecognized ++ [t] }

/-- What the arguments come to at their end. -/
def finish (given : Given) : Request :=
  match given.input, given.output with
  | none, none => .refused (.missing [.input, .output])
  | none, some _ => .refused (.missing [.input])
  | some _, none => .refused (.missing [.output])
  | some input, some output =>
      if given.unrecognized.isEmpty then .run ⟨input, output, given.schemas, given.check⟩
      else .refused (.unrecognized given.unrecognized)

end Given

/-- What letters behind `-h` ask for.  Another `h` asks again, and help is given if there is
nothing else; what is left is a value that help has no use for. -/
def ofCluster : Text → Request
  | ['h'] => .help
  | 'h' :: letters => ofCluster letters
  | value => .refused (.ignoredValue .help value)

/-- What the rest of the arguments asks for. -/
def ofClassified (given : Given) : List Argument → Request
  | [] => given.finish
  | .value t :: rest => ofClassified (given.addUnrecognized t) rest
  | .separator :: rest => ofClassified (given.addUnrecognized "--") rest
  | .unknown t :: rest => ofClassified (given.addUnrecognized t) rest
  | .cluster letters :: _ => ofCluster letters
  | .option flag (some value) :: rest =>
      if flag.takesValue then ofClassified (given.setValue flag value) rest
      else .refused (.ignoredValue flag value)
  | .option .help none :: _ => .help
  | .option .check none :: rest => ofClassified { given with check := true } rest
  | .option flag none :: .value t :: rest => ofClassified (given.setValue flag t) rest
  | .option flag none :: _ => .refused (.expectsValue flag)

/-- What a command line asks for. -/
def ofArguments (arguments : List Text) : Request :=
  match Argument.classifyAll arguments with
  | .error e => .refused e
  | .ok classified => ofClassified Given.empty classified

end Request

end EnumExtract
