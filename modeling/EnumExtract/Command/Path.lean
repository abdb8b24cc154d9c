/-
  EnumExtract.Command.Path
  ────────────────────────────────
  Paths of files as they are given and printed.  Repeated slashes, single dots
  and a slash at the end say nothing; a double dot does.
-/
import EnumExtract.Text.Basic

namespace EnumExtract

/-- What a path begins at. -/
inductive PathRoot where
  /-- The working directory. -/
  | relative
  /-- The root of the file system. -/
  | slash
  /-- The root, written as exactly two slashes. -/
  | doubleSlash
  deriving Repr, DecidableEq

/-- A path: where it begins, and its components, none of which is empty or a single dot. -/
structure Path where
  root : PathRoot
  parts : List Text
  deriving Repr, DecidableEq

/-- A place in a file system: the names on the way from its root. -/
abbrev Place := List Text

namespace Path

/-- What a written path begins at. -/
def rootOf (t : Text) : PathRoot :=
  match (t.takeWhile (· == '/')).length with
  | 0 => .relative
  | 2 => .doubleSlash
  | _ => .slash

/-- The path that a text writes. -/
def ofText (t : Text) : Path :=
  ⟨rootOf t, (t.splitOn '/').filter fun part => part ≠ [] && part ≠ "."⟩

/-- The path as it is printed; the empty relative path is a dot. -/
def text (p : Path) : Text :=
  match p.root, p.parts with
  | .relative, [] => "."
  | .relative, parts => Text.join "/" parts
  | .slash, parts => "/" ++ Text.join "/" parts
  | .doubleSlash, parts => "//" ++ Text.join "/" parts

/-- The path without its last component. -/
def parent (p : Path) : Path :=
  { p with parts := p.parts.dropLast }

/-- The place that the path is looked up from, the working directory being `cwd`. -/
def origin (cwd : Place) (p : Path) : Place :=
  match p.root with
  | .relative => cwd
  | _ => []

/-- The place one component further; a double dot leads back. -/
def follow (place : Place) (part : Text) : Place :=
  if part = ".." then place.dropLast else place ++ [part]

/-- The place that the path names, whether or not anything is there. -/
def resolve (cwd : Place) (p : Path) : Place :=
  p.parts.foldl follow (p.origin cwd)

end Path

end EnumExtract
