/-
  EnumExtract.Command.FileTree
  ────────────────────────────────
  File trees: which places hold a file with which bytes and which are
  directories, and what reading, making a directory and writing do.

  A path leads to a place only if every component but the last leads to a
  directory; a double dot after a file or after nothing leads nowhere.

  There are no links and no devices, everything may be read and written, and what
  is written is never cut short.
-/
import EnumExtract.Command.Path
import EnumExtract.Text.Quoted

namespace EnumExtract

/-! ## §1. Trees. -/

/-- What is at a place. -/
inductive Node where
  | file (content : List UInt8)
  | directory
  deriving Repr, DecidableEq

/-- A file system and the working directory in it.  The root is a directory; of two entries for one
place the first counts. -/
structure FileTree where
  cwd : Place
  nodes : List (Place × Node)
  deriving Repr, DecidableEq

/-! ## §2. Failures. -/

/-- Why the file system refuses. -/
inductive AccessKind where
  | notFound
  | exists
  | notDirectory
  | isDirectory
  deriving Repr, DecidableEq

/-- A refusal and the path it is about. -/
structure AccessError where
  kind : AccessKind
  path : Path
  deriving Repr, DecidableEq

namespace AccessError

/-- The refusal in words, with its number. -/
def message (e : AccessError) : Text :=
  let what : Text :=
    match e.kind with
    | .notFound => "[Errno 2] No such file or directory"
    | .exists => "[Errno 17] File exists"
    | .notDirectory => "[Errno 20] Not a directory"
    | .isDirectory => "[Errno 21] Is a directory"
  what ++ ": " ++ Text.quoted e.path.text

end AccessError

namespace FileTree

/-! ## §3. Looking. -/

/-- What is at a place. -/
def node? (tree : FileTree) (place : Place) : Option Node :=
  if place.isEmpty then some .directory else tree.nodes.lookup place

/-- The tree with `node` at a place. -/
def set (tree : FileTree) (place : Place) (node : Node) : FileTree :=
  { tree with nodes := put tree.nodes }
where
  put : List (Place × Node) → List (Place × Node)
    | [] => [(place, node)]
    | entry :: rest => if entry.1 = place then (place, node) :: rest else entry :: put rest

/-- The directory that components lead to from a place, each of them through a directory. -/
def enter (tree : FileTree) : Place → List Text → Except AccessKind Place
  | place, [] =>
      match tree.node? place with
      | some .directory => .ok place
      | some (.file _) => .error .notDirectory
      | none => .error .notFound
  | place, part :: rest =>
      match tree.node? place with
      | some .directory => tree.enter (Path.follow place part) rest
      | some (.file _) => .error .notDirectory
      | none => .error .notFound

/-- The place a path leads to, which may hold nothing if all before it are directories. -/
def locate (tree : FileTree) (path : Path) : Except AccessKind Place :=
  match path.parts.getLast? with
  | none => tree.enter (path.origin tree.cwd) []
  | some last =>
      (tree.enter (path.origin tree.cwd) path.parts.dropLast).map (Path.follow · last)

/-- What a path leads to, if it leads to anything. -/
def find? (tree : FileTree) (path : Path) : Option Node :=
  match tree.locate path with
  | .ok place => tree.node? place
  | .error _ => none

/-- The path leads to a file. -/
def isFile (tree : FileTree) (path : Path) : Bool :=
  match tree.find? path with
  | some (.file _) => true
  | _ => false

/-- The path leads to a directory. -/
def isDirectory (tree : FileTree) (path : Path) : Bool :=
  tree.find? path == some .directory

/-- The bytes of the file that a path leads to. -/
def read (tree : FileTree) (path : Path) : Except AccessError (List UInt8) :=
  match tree.locate path with
  | .error kind => .error ⟨kind, path⟩
  | .ok place =>
      match tree.node? place with
      | some (.file content) => .ok content
      | some .directory => .error ⟨.isDirectory, path⟩
      | none => .error ⟨.notFound, path⟩

/-! ## §4. Changing.

What changes a tree answers with the tree as it then is, also where it is refused: a refusal
does not undo what was done before it. -/

/-- The tree with a new directory where a path leads to nothing yet. -/
def makeDirectory (tree : FileTree) (path : Path) : Except AccessError FileTree :=
  match tree.locate path with
  | .error kind => .error ⟨kind, path⟩
  | .ok place =>
      match tree.node? place with
      | some _ => .error ⟨.exists, path⟩
      | none => .ok (tree.set place .directory)

/-- What making a directory comes to where an existing one is as good. -/
def orExisting (tree : FileTree) (path : Path) (e : AccessError) :
    Option AccessError × FileTree :=
  if e.kind ≠ .notFound && tree.isDirectory path then (none, tree) else (some e, tree)

/-- The tree with a directory where a path leads, made together with those on the way as far
as they are missing.  `reversed` are the components of the path, the last one first. -/
def makeDirectories (tree : FileTree) (root : PathRoot) :
    (reversed : List Text) → Option AccessError × FileTree
  | [] =>
      match tree.makeDirectory ⟨root, []⟩ with
      | .ok made => (none, made)
      | .error e => tree.orExisting ⟨root, []⟩ e
  | part :: outer =>
      let path : Path := ⟨root, (part :: outer).reverse⟩
      match tree.makeDirectory path with
      | .ok made => (none, made)
      | .error e =>
          if e.kind ≠ .notFound then tree.orExisting path e
          else
            match tree.makeDirectories root outer with
            | (some outerError, made) => (some outerError, made)
            | (none, made) =>
                match made.makeDirectory path with
                | .ok finished => (none, finished)
                | .error e => made.orExisting path e

/-- The tree with `content` in the file that a path leads to. -/
def write (tree : FileTree) (path : Path) (content : List UInt8) : Option AccessError × FileTree :=
  match tree.locate path with
  | .error kind => (some ⟨kind, path⟩, tree)
  | .ok place =>
      match tree.node? place with
      | some .directory => (some ⟨.isDirectory, path⟩, tree)
      | _ => (none, tree.set place (.file content))

/-- The tree with `content` in the file that a path leads to, the directories on the way made
first. -/
def writeWithParents (tree : FileTree) (path : Path) (content : List UInt8) :
    Option AccessError × FileTree :=
  match tree.makeDirectories path.parent.root path.parent.parts.reverse with
  | (some e, made) => (some e, made)
  | (none, made) => made.write path content

end FileTree

end EnumExtract
