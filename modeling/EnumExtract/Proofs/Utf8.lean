/-
  EnumExtract.Proofs.Utf8
  ────────────────────────────────
  A text that is written in UTF-8 is read back as it was.

  A character is written as a lead byte and up to three more, which carry six
  bits each.  Its lead byte tells how many there are and, for the shortest and the
  longest of a length, which part of the usual range the first of them lies in.

  Main results:
    • `character_encoded`   one character, whatever follows it,
    • `decode_toUtf8`       a text.
-/
import EnumExtract.Text.Utf8

namespace EnumExtract

namespace Utf8

/-! ## §1. Single bytes. -/

theorem toNat_ofNat {n : Nat} (fits : n < 256) : (UInt8.ofNat n).toNat = n :=
  UInt8.toNat_ofNat_of_lt' fits

/-- What a lead byte asks for, by its value. -/
theorem continuation?_ofNat {n : Nat} (fits : n < 256) :
    continuation? (UInt8.ofNat n)
      = if n < 0x80 then some (n, [])
        else if n < 0xC2 then none
        else if n < 0xE0 then some (n - 0xC0, [(0x80, 0xBF)])
        else if n = 0xE0 then some (n - 0xE0, [(0xA0, 0xBF), (0x80, 0xBF)])
        else if n = 0xED then some (n - 0xE0, [(0x80, 0x9F), (0x80, 0xBF)])
        else if n < 0xF0 then some (n - 0xE0, [(0x80, 0xBF), (0x80, 0xBF)])
        else if n = 0xF0 then some (n - 0xF0, [(0x90, 0xBF), (0x80, 0xBF), (0x80, 0xBF)])
        else if n < 0xF4 then some (n - 0xF0, [(0x80, 0xBF), (0x80, 0xBF), (0x80, 0xBF)])
        else if n = 0xF4 then some (n - 0xF0, [(0x80, 0x8F), (0x80, 0xBF), (0x80, 0xBF)])
        else none := by
  have value := toNat_ofNat fits
  unfold continuation?
  dsimp only
  simp only [UInt8.lt_iff_toNat_lt, ← UInt8.toNat_inj, value]
  rfl

/-- A byte in its range adds its six bits. -/
theorem codePoint_cons {bits x code : Nat} {low high : UInt8} {ranges : List (UInt8 × UInt8)}
    {rest : List UInt8} (above : low.toNat ≤ x % 64 + 128) (below : x % 64 + 128 ≤ high.toNat)
    (further : codePoint (bits * 64 + x % 64) ranges rest = .ok code) :
    codePoint bits ((low, high) :: ranges) (UInt8.ofNat (x % 64 + 128) :: rest) = .ok code := by
  have value : (UInt8.ofNat (x % 64 + 128)).toNat = x % 64 + 128 := toNat_ofNat (by omega)
  have inRange : (low ≤ UInt8.ofNat (x % 64 + 128) && UInt8.ofNat (x % 64 + 128) ≤ high) = true := by
    simp only [Bool.and_eq_true, decide_eq_true_eq, UInt8.le_iff_toNat_le, value]
    exact ⟨above, below⟩
  rw [codePoint, if_pos inRange, value, Nat.add_sub_cancel, further]

/-- The usual range is that of all six bits. -/
theorem codePoint_cons_usual {bits x code : Nat} {ranges : List (UInt8 × UInt8)} {rest : List UInt8}
    (further : codePoint (bits * 64 + x % 64) ranges rest = .ok code) :
    codePoint bits ((0x80, 0xBF) :: ranges) (UInt8.ofNat (x % 64 + 128) :: rest) = .ok code :=
  codePoint_cons (Nat.le_add_left _ _) (show x % 64 + 128 ≤ 191 by omega) further

/-! ## §2. Characters. -/

theorem character_of_codePoint {position bits code : Nat} {lead : UInt8}
    {ranges : List (UInt8 × UInt8)} {rest : List UInt8}
    (asked : continuation? lead = some (bits, ranges)) (read : codePoint bits ranges rest = .ok code) :
    character position lead rest = .ok (Char.ofNat code, ranges.length) := by
  unfold character
  rw [asked]
  dsimp only
  rw [read]

theorem character_oneByte {v : Nat} (last : v ≤ 0x7F) (position : Nat) (more : List UInt8) :
    character position (UInt8.ofNat v) more = .ok (Char.ofNat v, 0) := by
  have asked : continuation? (UInt8.ofNat v) = some (v, []) := by
    rw [continuation?_ofNat (by omega), if_pos (by omega)]
  exact character_of_codePoint asked rfl

theorem character_twoBytes {v : Nat} (first : 0x80 ≤ v) (last : v ≤ 0x7FF) (position : Nat)
    (more : List UInt8) :
    character position (UInt8.ofNat (v / 64 % 0x20 + 0xC0)) (UInt8.ofNat (v % 64 + 128) :: more)
      = .ok (Char.ofNat v, 1) := by
  have asked : continuation? (UInt8.ofNat (v / 64 % 0x20 + 0xC0))
      = some (v / 64 % 0x20, [(0x80, 0xBF)]) := by
    rw [continuation?_ofNat (by omega), if_neg (by omega), if_neg (by omega), if_pos (by omega),
      Nat.add_sub_cancel]
  have sum : v / 64 % 0x20 * 64 + v % 64 = v := by omega
  exact character_of_codePoint asked (codePoint_cons_usual (congrArg Except.ok sum))

/-- The shortest and the longest characters of three bytes have a range of their own. -/
theorem continuation?_threeBytes {v : Nat} (first : 0x800 ≤ v) (last : v ≤ 0xFFFF)
    (valid : v < 0xD800 ∨ 0xDFFF < v) :
    ∃ low high : UInt8,
      continuation? (UInt8.ofNat (v / 4096 % 0x10 + 0xE0))
          = some (v / 4096 % 0x10, [(low, high), (0x80, 0xBF)])
        ∧ low.toNat ≤ v / 64 % 64 + 128 ∧ v / 64 % 64 + 128 ≤ high.toNat := by
  rw [continuation?_ofNat (by omega), if_neg (by omega), if_neg (by omega), if_neg (by omega),
    Nat.add_sub_cancel]
  by_cases shortest : v < 0x1000
  · rw [if_pos (by omega)]
    exact ⟨_, _, rfl, show 0xA0 ≤ _ by omega, show _ ≤ 0xBF by omega⟩
  · rw [if_neg (by omega)]
    by_cases surrogates : 0xD000 ≤ v ∧ v < 0xE000
    · rw [if_pos (by omega)]
      exact ⟨_, _, rfl, show 0x80 ≤ _ by omega, show _ ≤ 0x9F by omega⟩
    · rw [if_neg (by omega), if_pos (by omega)]
      exact ⟨_, _, rfl, show 0x80 ≤ _ by omega, show _ ≤ 0xBF by omega⟩

theorem character_threeBytes {v : Nat} (first : 0x800 ≤ v) (last : v ≤ 0xFFFF)
    (valid : v < 0xD800 ∨ 0xDFFF < v) (position : Nat) (more : List UInt8) :
    character position (UInt8.ofNat (v / 4096 % 0x10 + 0xE0))
        (UInt8.ofNat (v / 64 % 64 + 128) :: UInt8.ofNat (v % 64 + 128) :: more)
      = .ok (Char.ofNat v, 2) := by
  obtain ⟨low, high, asked, above, below⟩ := continuation?_threeBytes first last valid
  have sum : (v / 4096 % 0x10 * 64 + v / 64 % 64) * 64 + v % 64 = v := by omega
  exact character_of_codePoint asked
    (codePoint_cons above below (codePoint_cons_usual (congrArg Except.ok sum)))

/-- So do the shortest and the longest of four bytes. -/
theorem continuation?_fourBytes {v : Nat} (first : 0x10000 ≤ v) (last : v < 0x110000) :
    ∃ low high : UInt8,
      continuation? (UInt8.ofNat (v / 262144 % 8 + 0xF0))
          = some (v / 262144 % 8, [(low, high), (0x80, 0xBF), (0x80, 0xBF)])
        ∧ low.toNat ≤ v / 4096 % 64 + 128 ∧ v / 4096 % 64 + 128 ≤ high.toNat := by
  rw [continuation?_ofNat (by omega), if_neg (by omega), if_neg (by omega), if_neg (by omega),
    if_neg (by omega), if_neg (by omega), if_neg (by omega), Nat.add_sub_cancel]
  by_cases shortest : v < 0x40000
  · rw [if_pos (by omega)]
    exact ⟨_, _, rfl, show 0x90 ≤ _ by omega, show _ ≤ 0xBF by omega⟩
  · rw [if_neg (by omega)]
    by_cases middle : v < 0x100000
    · rw [if_pos (by omega)]
      exact ⟨_, _, rfl, show 0x80 ≤ _ by omega, show _ ≤ 0xBF by omega⟩
    · rw [if_neg (by omega), if_pos (by omega)]
      exact ⟨_, _, rfl, show 0x80 ≤ _ by omega, show _ ≤ 0x8F by omega⟩

theorem character_fourBytes {v : Nat} (first : 0x10000 ≤ v) (last : v < 0x110000) (position : Nat)
    (more : List UInt8) :
    character position (UInt8.ofNat (v / 262144 % 8 + 0xF0))
        (UInt8.ofNat (v / 4096 % 64 + 128) :: UInt8.ofNat (v / 64 % 64 + 128)
          :: UInt8.ofNat (v % 64 + 128) :: more)
      = .ok (Char.ofNat v, 3) := by
  obtain ⟨low, high, asked, above, below⟩ := continuation?_fourBytes first last
  have sum : ((v / 262144 % 8 * 64 + v / 4096 % 64) * 64 + v / 64 % 64) * 64 + v % 64 = v := by omega
  exact character_of_codePoint asked
    (codePoint_cons above below (codePoint_cons_usual (codePoint_cons_usual (congrArg Except.ok sum))))

/-- **A character is read back**, and all of its bytes are taken. -/
theorem character_encoded (c : Char) (position : Nat) (more : List UInt8) :
    ∃ lead rest, String.utf8EncodeChar c = lead :: rest
      ∧ character position lead (rest ++ more) = .ok (c, rest.length) := by
  have valid : c.val.toNat < 0xD800 ∨ 0xDFFF < c.val.toNat ∧ c.val.toNat < 0x110000 := c.valid
  have same : Char.ofNat c.val.toNat = c := Char.ofNat_toNat c
  unfold String.utf8EncodeChar
  dsimp only
  generalize c.val.toNat = v at valid same
  rw [← same]
  by_cases one : v ≤ 0x7F
  · rw [if_pos one]
    exact ⟨_, _, rfl, character_oneByte one position more⟩
  rw [if_neg one]
  by_cases two : v ≤ 0x7FF
  · rw [if_pos two]
    exact ⟨_, _, rfl, character_twoBytes (by omega) two position more⟩
  rw [if_neg two]
  by_cases three : v ≤ 0xFFFF
  · rw [if_pos three]
    exact ⟨_, _, rfl, character_threeBytes (by omega) three (by omega) position more⟩
  · rw [if_neg three]
    exact ⟨_, _, rfl, character_fourBytes (by omega) (by omega) position more⟩

/-! ## §3. Texts. -/

/-- Bytes that belong to a character already read are passed over. -/
theorem decode_go_claimed (claimed : List UInt8) (position : Nat) (rest : List UInt8) :
    decode.go claimed.length position (claimed ++ rest)
      = decode.go 0 (position + claimed.length) rest := by
  induction claimed generalizing position with
  | nil => rfl
  | cons byte claimed ih =>
      rw [List.length_cons, List.cons_append, decode.go, ih]
      congr 1
      omega

theorem decode_go_toUtf8 (t : Text) (position : Nat) : decode.go 0 position t.toUtf8 = .ok t := by
  induction t generalizing position with
  | nil => rfl
  | cons c t ih =>
      obtain ⟨lead, rest, encoded, read⟩ := character_encoded c position (Text.toUtf8 t)
      have split : Text.toUtf8 (c :: t) = lead :: (rest ++ Text.toUtf8 t) := by
        show String.utf8EncodeChar c ++ Text.toUtf8 t = _
        rw [encoded, List.cons_append]
      rw [split, decode.go, read]
      dsimp only
      rw [decode_go_claimed, ih]

/-- **Writing and reading back** gives the text that was written. -/
theorem decode_toUtf8 (t : Text) : decode t.toUtf8 = .ok t :=
  decode_go_toUtf8 t 0

end Utf8

end EnumExtract
