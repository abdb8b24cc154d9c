/-
  EnumExtract.Text.CodeRange
  ────────────────────────────────
  Character classes given as ranges of code points.
-/

namespace EnumExtract

/-- The code points from `first` through `last`. -/
structure CodeRange where
  first : Nat
  last : Nat
  deriving Repr, DecidableEq

namespace CodeRange

/-- The character's code point lies in the range. -/
def holds (r : CodeRange) (c : Char) : Bool :=
  r.first ≤ c.toNat && c.toNat ≤ r.last

/-- The ranges that a list of bounds, each with its first and last code point, stands for. -/
def ofBounds (bounds : List (Nat × Nat)) : List CodeRange :=
  bounds.map fun b => ⟨b.1, b.2⟩

end CodeRange

/-- Some range of the list holds the character. -/
def inRanges (ranges : List CodeRange) (c : Char) : Bool :=
  ranges.any (·.holds c)

end EnumExtract
