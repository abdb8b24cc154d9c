/-
  EnumExtract.Text.Utf8
  ────────────────────────────────
  UTF-8: texts as bytes and back.

  A sequence of bytes that is no character is a fault, described by where it
  starts, how many bytes belong to it, and what is wrong: a byte that starts
  no character, a byte that does not continue one, or the end of the bytes
  inside one.  The bytes of a bad sequence are those that could still have
  begun a character.
-/
import EnumExtract.Text.Number

namespace EnumExtract

namespace Text

/-- The text in UTF-8. -/
def toUtf8 (t : Text) : List UInt8 :=
  t.flatMap String.utf8EncodeChar

end Text

namespace Utf8

/-! ## §1. Faults. -/

/-- What is wrong with a sequence of bytes. -/
inductive Defect where
  | invalidStart
  | invalidContinuation
  | unexpectedEnd
  deriving Repr, DecidableEq

/-- The defect in words. -/
def Defect.message : Defect → Text
  | .invalidStart => "invalid start byte"
  | .invalidContinuation => "invalid continuation byte"
  | .unexpectedEnd => "unexpected end of data"

/-- A sequence of bytes that is no character. -/
structure Malformed where
  /-- How many bytes come before it. -/
  position : Nat
  /-- Its first byte. -/
  lead : UInt8
  /-- How many bytes it has. -/
  length : Nat
  defect : Defect
  deriving Repr, DecidableEq

/-- The fault in words.  A sequence of one byte is shown by its value. -/
def Malformed.message (m : Malformed) : Text :=
  let what : Text :=
    if m.length = 1 then
      "byte 0x" ++ Text.hex 2 m.lead.toNat ++ " in position " ++ Text.ofNat m.position
    else
      "bytes in position " ++ Text.ofNat m.position ++ "-"
        ++ Text.ofNat (m.position + m.length - 1)
  "'utf-8' codec can't decode " ++ what ++ ": " ++ m.defect.message

/-! ## §2. Decoding. -/

/-- The ranges that the bytes after a lead byte have to lie in, and the bits that the lead byte
itself gives; `none` for a byte that starts no character. -/
def continuation? (lead : UInt8) : Option (Nat × List (UInt8 × UInt8)) :=
  let rest : UInt8 × UInt8 := (0x80, 0xBF)
  let bits := lead.toNat
  if lead < 0x80 then some (bits, [])
  else if lead < 0xC2 then none
  else if lead < 0xE0 then some (bits - 0xC0, [rest])
  else if lead = 0xE0 then some (bits - 0xE0, [(0xA0, 0xBF), rest])
  else if lead = 0xED then some (bits - 0xE0, [(0x80, 0x9F), rest])
  else if lead < 0xF0 then some (bits - 0xE0, [rest, rest])
  else if lead = 0xF0 then some (bits - 0xF0, [(0x90, 0xBF), rest, rest])
  else if lead < 0xF4 then some (bits - 0xF0, [rest, rest, rest])
  else if lead = 0xF4 then some (bits - 0xF0, [(0x80, 0x8F), rest, rest])
  else none

/-- The code point whose bits so far are `bits` and whose other bytes have to lie in `ranges`; or
how many of them fit before one did not, and what is wrong. -/
def codePoint (bits : Nat) : List (UInt8 × UInt8) → List UInt8 → Except (Nat × Defect) Nat
  | [], _ => .ok bits
  | _ :: _, [] => .error (0, .unexpectedEnd)
  | (low, high) :: ranges, byte :: rest =>
      if low ≤ byte && byte ≤ high then
        match codePoint (bits * 64 + (byte.toNat - 0x80)) ranges rest with
        | .ok code => .ok code
        | .error (fitting, defect) => .error (fitting + 1, defect)
      else .error (0, .invalidContinuation)

/-- The character at the start of the bytes and how many further bytes it takes. -/
def character (position : Nat) (lead : UInt8) (rest : List UInt8) :
    Except Malformed (Char × Nat) :=
  match continuation? lead with
  | none => .error ⟨position, lead, 1, .invalidStart⟩
  | some (bits, ranges) =>
      match codePoint bits ranges rest with
      | .ok code => .ok (Char.ofNat code, ranges.length)
      | .error (fitting, defect) => .error ⟨position, lead, fitting + 1, defect⟩

/-- The text that bytes write in UTF-8. -/
def decode (bytes : List UInt8) : Except Malformed Text :=
  go 0 0 bytes
where
  /-- `claimed` bytes belong to the character read last. -/
  go (claimed position : Nat) : List UInt8 → Except Malformed Text
    | [] => .ok []
    | byte :: rest =>
        match claimed with
        | k + 1 => go k (position + 1) rest
        | 0 =>
            match character position byte rest with
            | .error m => .error m
            | .ok (c, further) =>
                match go further (position + 1) rest with
                | .error m => .error m
                | .ok text => .ok (c :: text)

end Utf8

end EnumExtract
