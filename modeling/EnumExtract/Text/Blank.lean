/-
  EnumExtract.Text.Blank
  ────────────────────────────────
  White space: which characters are blank, and the operations that take
  blanks away or cut a text at them.
-/
import EnumExtract.Text.Basic

namespace EnumExtract

/-- The white space characters: the ASCII blanks and information separators,
the next-line and no-break controls, and the Unicode space, line and
paragraph separators. -/
def isBlank (c : Char) : Bool :=
  let n := c.toNat
  (0x09 ≤ n && n ≤ 0x0D) || (0x1C ≤ n && n ≤ 0x20) || n == 0x85 || n == 0xA0
    || n == 0x1680 || (0x2000 ≤ n && n ≤ 0x200A) || n == 0x2028 || n == 0x2029
    || n == 0x202F || n == 0x205F || n == 0x3000

namespace Text

/-- Nothing but blanks. -/
def isBlank (t : Text) : Bool :=
  t.all EnumExtract.isBlank

/-- How many blanks the text begins with. -/
def blanks (t : Text) : Nat :=
  (t.takeWhile EnumExtract.isBlank).length

/-- The text from its first character that is not blank. -/
def trimStart (t : Text) : Text :=
  t.dropWhile EnumExtract.isBlank

/-- The text through its last character that is not blank. -/
def trimEnd (t : Text) : Text :=
  (t.reverse.dropWhile EnumExtract.isBlank).reverse

/-- The text without the blanks at both ends. -/
def trim (t : Text) : Text :=
  t.trimStart.trimEnd

/-- The text without any blank. -/
def unspaced (t : Text) : Text :=
  t.filter (!EnumExtract.isBlank ·)

/-- The longest parts of the text that hold no blank. -/
def words (t : Text) : List Text :=
  (t.splitOnP EnumExtract.isBlank).filter (!·.isEmpty)

/-- The words of the text with one space between neighbours. -/
def collapse (t : Text) : Text :=
  join " " t.words

end Text

end EnumExtract
