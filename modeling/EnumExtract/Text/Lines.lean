/-
  EnumExtract.Text.Lines
  ────────────────────────────────
  Lines: cutting a text at line breaks, and the line and column of an offset.

  Two notions of a line meet here.  A *location* counts line feeds only.
  Cutting a text into `lines` knows every line break character, and a
  carriage return with the line feed after it is one break.
-/
import EnumExtract.Text.Basic

namespace EnumExtract

/-- The characters that end a line. -/
def isLineBreak (c : Char) : Bool :=
  let n := c.toNat
  (0x0A ≤ n && n ≤ 0x0D) || (0x1C ≤ n && n ≤ 0x1E) || n == 0x85
    || n == 0x2028 || n == 0x2029

/-- A place in a text as line and column, both counted from one. -/
structure Location where
  line : Nat
  column : Nat
  deriving Repr, DecidableEq

namespace Text

/-- The lines of a text without their breaks.  A break at the very end opens no further line. -/
def lines : Text → List Text
  | [] => []
  | '\r' :: '\n' :: rest => [] :: lines rest
  | c :: rest =>
      if isLineBreak c then [] :: lines rest
      else
        match lines rest with
        | [] => [[c]]
        | line :: more => (c :: line) :: more

/-- How many line feeds the text holds. -/
def lineFeeds (t : Text) : Nat :=
  t.count '\n'

/-- The location of offset `i`: the line feeds before it count the line, and
the distance from the start of that line counts the column. -/
def location (t : Text) (i : Nat) : Location where
  line := lineFeeds (t.take i) + 1
  column := i + 1 - t.lineStart i

/-- Line ends as line feeds: a carriage return, with the line feed after it
if there is one, becomes one line feed. -/
def normalizeLineEnds : Text → Text
  | [] => []
  | '\r' :: '\n' :: rest => '\n' :: normalizeLineEnds rest
  | '\r' :: rest => '\n' :: normalizeLineEnds rest
  | c :: rest => c :: normalizeLineEnds rest

end Text

end EnumExtract
