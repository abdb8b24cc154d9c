/-
  EnumExtract.Text.Quoted
  ────────────────────────────────
  A text between quotes, as messages show it.
-/
import EnumExtract.Text.Number
import EnumExtract.Text.Printable

namespace EnumExtract.Text

/-- A character inside a pair of the quotes `quote`: the quote, the backslash and the common
controls have short escapes, other characters that are not printable are written by code point
in two, four or eight hexadecimal digits, and the rest stand for themselves. -/
def escaped (quote c : Char) : Text :=
  if c == '\\' || c == quote then ['\\', c]
  else if c == '\n' then "\\n"
  else if c == '\r' then "\\r"
  else if c == '\t' then "\\t"
  else if isPrintable c then [c]
  else if c.toNat < 0x100 then "\\x" ++ hex 2 c.toNat
  else if c.toNat < 0x10000 then "\\u" ++ hex 4 c.toNat
  else "\\U" ++ hex 8 c.toNat

/-- A text between single quotes, or between double quotes if it holds a single quote and no
double one. -/
def quoted (t : Text) : Text :=
  let quote := if t.contains '\'' && !t.contains '"' then '"' else '\''
  quote :: t.flatMap (escaped quote) ++ [quote]

end EnumExtract.Text
