/-
  EnumExtract.Source.Lexeme
  ────────────────────────────────
  Lexemes: the comments and literals of a source, whose contents mean nothing
  to the rest of the reader.

      line comment     from `//` through the line feed, or to the end of the text
      block comment    from `/*` to the `*/` that closes it; block comments nest
      string           from `"` to the next `"` that no backslash precedes
      raw string       `r`, `br` with hashes at the start of a word; ends at a quote with
                       as many hashes
      character        `'`, one character or escape, `'`
      tick             a `'` that starts no character, as in a lifetime

  A comment or string that does not end is a fault at its first character.
-/
import EnumExtract.Source.Cursor
import EnumExtract.Text.Word
import EnumExtract.Text.Digit

namespace EnumExtract

/-! ## §1. Comments. -/

/-- The length of the line at the start of a text, its line feed included. -/
def lineLength : Text → Nat
  | [] => 0
  | c :: rest => if c = '\n' then 1 else lineLength rest + 1

/-- The length of a text up to the end of the block comment it is `depth` levels
inside of; an opener met on the way has to be closed first. -/
def blockLength? : Nat → Text → Option Nat
  | depth, '/' :: '*' :: rest => (blockLength? (depth + 1) rest).map (· + 2)
  | depth, '*' :: '/' :: rest =>
      if depth ≤ 1 then some 2 else (blockLength? (depth - 1) rest).map (· + 2)
  | depth, _ :: rest => (blockLength? depth rest).map (· + 1)
  | _, [] => none

/-- A doc comment starts the text: `///` with no fourth slash, or `/**` with neither a third
star nor a slash right after it. -/
def startsDocComment (t : Text) : Bool :=
  if t.startsWith "///" then !t.startsWith "////"
  else t.startsWith "/**" && !(t.startsWith "/***" || t.startsWith "/**/")

/-! ## §2. Literals. -/

/-- The length of a string literal after its opening quote, the closing quote included. -/
def stringLength? : Text → Option Nat
  | '\\' :: _ :: rest => (stringLength? rest).map (· + 2)
  | '"' :: _ => some 1
  | _ :: rest => (stringLength? rest).map (· + 1)
  | [] => none

/-- The opener of a raw string: its length through the quote, and its number of hashes. -/
def rawOpener? : Text → Option (Nat × Nat)
  | 'b' :: 'r' :: rest => afterLetters 2 rest
  | 'r' :: rest => afterLetters 1 rest
  | _ => none
where
  afterLetters (letters : Nat) (rest : Text) : Option (Nat × Nat) :=
    let hashes := (rest.takeWhile (· == '#')).length
    if rest[hashes]? = some '"' then some (letters + hashes + 1, hashes) else none

/-- The length of an escape of two hexadecimal digits. -/
def hexEscape? : Text → Option Nat
  | '\\' :: 'x' :: a :: b :: _ => if isHexDigit a && isHexDigit b then some 4 else none
  | _ => none

/-- The length of an escape of one to six hexadecimal digits in braces. -/
def unicodeEscape? : Text → Option Nat
  | '\\' :: 'u' :: '{' :: rest =>
      let digits := ((rest.take 6).takeWhile isHexDigit).length
      if 1 ≤ digits && rest[digits]? == some '}' then some (digits + 4) else none
  | _ => none

/-- The length of any escaped character other than a line feed. -/
def plainEscape? : Text → Option Nat
  | '\\' :: c :: _ => if c = '\n' then none else some 2
  | _ => none

/-- The length of one character that is no backslash, no tick and no line feed. -/
def plainCharacter? : Text → Option Nat
  | c :: _ => if c = '\\' || c = '\'' || c = '\n' then none else some 1
  | _ => none

/-- The length of what `body?` measures and the tick right behind it. -/
def closedBy? (body? : Text → Option Nat) (t : Text) : Option Nat := do
  let length ← body? t
  if (t.drop length).head? = some '\'' then some (length + 1) else none

/-- The length of a character literal after its opening tick, the closing tick included. -/
def characterLength? (t : Text) : Option Nat :=
  [hexEscape?, unicodeEscape?, plainEscape?, plainCharacter?].findSome? (closedBy? · t)

/-! ## §3. The lexeme at a cursor. -/

namespace Cursor

/-- No word character stands before the cursor. -/
def atWordStart (c : Cursor) : Bool :=
  c.before.all (!isWord ·)

/-- The length of the comment at the cursor, if one starts there. -/
def comment? (c : Cursor) : Except Fault (Option Nat) :=
  match c.ahead with
  | '/' :: '/' :: _ => .ok (some (lineLength c.ahead))
  | '/' :: '*' :: _ =>
      match blockLength? 0 c.ahead with
      | some length => .ok (some length)
      | none => c.fail .unterminatedBlockComment
  | _ => .ok none

/-- The opener of the raw string at the cursor.  Inside a word there is none. -/
def rawOpener? (c : Cursor) : Option (Nat × Nat) :=
  if c.atWordStart then EnumExtract.rawOpener? c.ahead else none

/-- The length of the literal or tick at the cursor, if one starts there. -/
def literal? (c : Cursor) : Except Fault (Option Nat) :=
  match c.rawOpener? with
  | some (opener, hashes) =>
      match Text.find? ('"' :: List.replicate hashes '#') (c.ahead.drop opener) with
      | some content => .ok (some (opener + content + 1 + hashes))
      | none => c.fail .unterminatedRawString
  | none =>
      match c.ahead with
      | '"' :: rest =>
          match stringLength? rest with
          | some length => .ok (some (length + 1))
          | none => c.fail .unterminatedString
      | '\'' :: rest =>
          match characterLength? rest with
          | some length => .ok (some (length + 1))
          | none => .ok (some 1)
      | _ => .ok none

/-- The length of the lexeme at the cursor, if one starts there. -/
def lexeme? (c : Cursor) : Except Fault (Option Nat) := do
  match ← c.comment? with
  | some length => return some length
  | none => c.literal?

end Cursor

end EnumExtract
