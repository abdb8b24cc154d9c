/-
  EnumExtract.Text.Number
  ────────────────────────────────
  Whole numbers as text: decimal, lower-case hexadecimal, decimal with
  grouped thousands, and padding to a width.
-/
import EnumExtract.Text.Basic

namespace EnumExtract.Text

/-- The decimal digits of a number. -/
def ofNat (n : Nat) : Text :=
  Nat.toDigits 10 n

/-- The decimal digits of a number, after a minus sign when it is negative. -/
def ofInt : Int → Text
  | .ofNat n => ofNat n
  | .negSucc n => '-' :: ofNat (n + 1)

/-- Lower-case hexadecimal digits, with zeros in front to reach `width`. -/
def hex (width n : Nat) : Text :=
  let digits := Nat.toDigits 16 n
  List.replicate (width - digits.length) '0' ++ digits

/-- Spaces in front to reach `width`. -/
def padStart (width : Nat) (t : Text) : Text :=
  List.replicate (width - t.length) ' ' ++ t

/-- Spaces behind to reach `width`. -/
def padEnd (width : Nat) (t : Text) : Text :=
  t ++ List.replicate (width - t.length) ' '

/-- A comma before every third digit from the right, the first digit excepted. -/
def groupThousands : Text → Text
  | [] => []
  | d :: rest =>
      if rest.length % 3 = 0 && !rest.isEmpty then d :: ',' :: groupThousands rest
      else d :: groupThousands rest

/-- A decimal number with its thousands grouped by commas. -/
def ofIntGrouped : Int → Text
  | .ofNat n => groupThousands (ofNat n)
  | .negSucc n => '-' :: groupThousands (ofNat (n + 1))

end EnumExtract.Text
