/-
  EnumExtract.Schema.FieldType
  ────────────────────────────────
  Field types are not interpreted.  Two types are the same when their tokens
  are, whatever the blanks between them; a type is printed as it was written,
  with its blanks collapsed.
-/
import EnumExtract.Source.Name

namespace EnumExtract

/-- The type of a field. -/
structure FieldType where
  tokens : List Text
  /-- The type as written, its blanks collapsed. -/
  text : Text
  deriving Repr, DecidableEq

namespace FieldType

/-- The length of the type token at the start of a text: a name or lifetime, a number, one of
`::`, `->`, `=>`, or a single character. -/
def tokenLength : Text → Nat
  | [] => 0
  | c :: rest =>
      let t := c :: rest
      let name := if c = '\'' then Text.nameLength rest else Text.nameLength t
      if name ≠ 0 then (if c = '\'' then name + 1 else name)
      else if isDecimalDigit c then (rest.takeWhile fun d => isWord d || d == '.').length + 1
      else if (["::", "->", "=>"] : List Text).any (Text.startsWith t) then 2
      else 1

/-- The tokens of a type, the blanks between them left out. -/
def tokenize (t : Text) : List Text :=
  go 0 t
where
  /-- `claimed` characters belong to the token found last. -/
  go (claimed : Nat) : Text → List Text
    | [] => []
    | c :: rest =>
        match claimed with
        | k + 1 => go k rest
        | 0 =>
            if isBlank c then go 0 rest
            else
              let length := tokenLength (c :: rest)
              (c :: rest).take length :: go (length - 1) rest

/-- The type that a text writes. -/
def ofText (t : Text) : FieldType :=
  ⟨tokenize t, t.collapse⟩

/-- The two types have the same tokens. -/
def same (a b : FieldType) : Bool :=
  a.tokens = b.tokens

end FieldType

end EnumExtract
