/-
  EnumExtract.Proofs.Lexemes
  ────────────────────────────────
  How far a lexeme reaches, and on what that depends.

  Every measure of a lexeme is `Settled`: the characters it counts determine
  the count, whatever comes after them.  Two lexemes are no such thing and are
  treated apart, a tick that starts no character literal and a line comment
  that the end of the text ends.

  Main results:
    • `lexeme?_bounds`      a lexeme has a length, and it ends within the text,
    • `lexeme?_eq_none`     which characters start no lexeme.
-/
import EnumExtract.Proofs.Walk
import EnumExtract.Source.Trivia

namespace EnumExtract

/-! ## §1. Measures that are settled by what they count. -/

/-- `measure` counts `n` characters at the start of `t` whatever stands behind them. -/
def Settled (measure : Text → Option Nat) (t : Text) (n : Nat) : Prop :=
  ∃ u v : Text, t = u ++ v ∧ u.length = n ∧ ∀ w : Text, measure (u ++ w) = some n

theorem Settled.le_length {measure : Text → Option Nat} {t : Text} {n : Nat}
    (h : Settled measure t n) : n ≤ t.length := by
  obtain ⟨u, v, rfl, rfl, _⟩ := h
  simp

/-- A settled measure is the same for every text that begins in the same way. -/
theorem Settled.of_take {measure : Text → Option Nat} {t t' : Text} {n : Nat}
    (h : Settled measure t n) (same : t'.take n = t.take n) : measure t' = some n := by
  obtain ⟨u, v, rfl, rfl, stable⟩ := h
  rw [List.take_left] at same
  rw [← List.take_append_drop u.length t', same]
  exact stable _

theorem lineLength_le (t : Text) : lineLength t ≤ t.length := by
  induction t with
  | nil => exact Nat.le_refl _
  | cons c rest ih =>
      rw [lineLength]
      split
      · exact Nat.le_add_left _ _
      · exact Nat.succ_le_succ ih

theorem lineLength_pos {t : Text} (h : t ≠ []) : 0 < lineLength t := by
  cases t with
  | nil => exact absurd rfl h
  | cons c rest =>
      rw [lineLength]
      split <;> omega

/-- A line goes on to its line feed at least. -/
theorem length_le_lineLength {u : Text} (h : '\n' ∉ u) (v : Text) :
    u.length ≤ lineLength (u ++ v) := by
  induction u with
  | nil => exact Nat.zero_le _
  | cons ch u ih =>
      rw [List.mem_cons, not_or] at h
      rw [List.cons_append, lineLength, if_neg (Ne.symm h.1), List.length_cons]
      exact Nat.succ_le_succ (ih h.2)

theorem two_le_blockLength? : ∀ (depth : Nat) (t : Text) (n : Nat),
    blockLength? depth t = some n → 2 ≤ n := by
  intro depth t
  fun_induction blockLength? depth t with
  | case1 depth rest ih =>
      intro n h
      obtain ⟨m, _, rfl⟩ := Option.map_eq_some_iff.mp h
      omega
  | case2 =>
      intro n h
      cases h
      omega
  | case3 depth rest deep ih =>
      intro n h
      obtain ⟨m, _, rfl⟩ := Option.map_eq_some_iff.mp h
      omega
  | case4 depth c rest notOpen notClose ih =>
      intro n h
      obtain ⟨m, hm, rfl⟩ := Option.map_eq_some_iff.mp h
      have := ih m hm
      omega
  | case5 => intro n h; cases h

/-- A block comment is settled by its own characters. -/
theorem blockLength?_settled (depth : Nat) (t : Text) :
    ∀ n, blockLength? depth t = some n → Settled (blockLength? depth) t n := by
  fun_induction blockLength? depth t with
  | case1 depth rest ih =>
      intro n h
      obtain ⟨m, hm, rfl⟩ := Option.map_eq_some_iff.mp h
      obtain ⟨u, v, rfl, len, stable⟩ := ih m hm
      refine ⟨'/' :: '*' :: u, v, rfl, by simp [len], fun w => ?_⟩
      rw [List.cons_append, List.cons_append, blockLength?, stable w]
      rfl
  | case2 depth rest shallow =>
      intro n h
      cases h
      refine ⟨['*', '/'], rest, rfl, rfl, fun w => ?_⟩
      simp [blockLength?, shallow]
  | case3 depth rest deep ih =>
      intro n h
      obtain ⟨m, hm, rfl⟩ := Option.map_eq_some_iff.mp h
      obtain ⟨u, v, rfl, len, stable⟩ := ih m hm
      refine ⟨'*' :: '/' :: u, v, rfl, by simp [len], fun w => ?_⟩
      simp [blockLength?, deep, stable w]
  | case4 depth c rest notOpen notClose ih =>
      intro n h
      obtain ⟨m, hm, rfl⟩ := Option.map_eq_some_iff.mp h
      obtain ⟨u, v, rfl, len, stable⟩ := ih m hm
      have nonempty : u ≠ [] := by
        intro empty
        subst empty
        have := two_le_blockLength? _ _ _ hm
        simp at len
        omega
      refine ⟨c :: u, v, rfl, by simp [len], fun w => ?_⟩
      obtain ⟨x, u, rfl⟩ := List.exists_cons_of_ne_nil nonempty
      rw [List.cons_append, blockLength?.eq_3 _ _ _ ?_ ?_, stable w]
      · rfl
      · intro r hc hr
        exact notOpen _ hc (by rw [List.cons_append] at hr ⊢; injection hr with hx; rw [hx])
      · intro r hc hr
        exact notClose _ hc (by rw [List.cons_append] at hr ⊢; injection hr with hx; rw [hx])
  | case5 => intro n h; cases h

/-- A string literal is settled by its own characters. -/
theorem stringLength?_settled (t : Text) :
    ∀ n, stringLength? t = some n → Settled stringLength? t n := by
  fun_induction stringLength? t with
  | case1 c rest ih =>
      intro n h
      obtain ⟨m, hm, rfl⟩ := Option.map_eq_some_iff.mp h
      obtain ⟨u, v, rfl, len, stable⟩ := ih m hm
      refine ⟨'\\' :: c :: u, v, rfl, by simp [len], fun w => ?_⟩
      rw [List.cons_append, List.cons_append, stringLength?, stable w]
      rfl
  | case2 rest =>
      intro n h
      cases h
      exact ⟨['"'], rest, rfl, rfl, fun w => rfl⟩
  | case3 c rest notEscape notQuote ih =>
      intro n h
      obtain ⟨m, hm, rfl⟩ := Option.map_eq_some_iff.mp h
      obtain ⟨u, v, rfl, len, stable⟩ := ih m hm
      refine ⟨c :: u, v, rfl, by simp [len], fun w => ?_⟩
      have nonempty : u ≠ [] := by
        intro empty
        subst empty
        have := stable []
        simp [stringLength?] at this
      obtain ⟨x, u, rfl⟩ := List.exists_cons_of_ne_nil nonempty
      rw [List.cons_append, stringLength?.eq_3 _ _ ?_ ?_, stable w]
      · rfl
      · intro d r hc hr
        exact notEscape x _ hc rfl
      · intro hc
        exact notQuote hc
  | case4 => intro n h; cases h

/-- The first occurrence of a word is settled by the text through that occurrence. -/
theorem find?_settled (word : Text) (pos : word ≠ []) (t : Text) :
    ∀ n, Text.find? word t = some n → ∃ u v : Text, t = u ++ v ∧ u.length = n + word.length
      ∧ ∀ w : Text, Text.find? word (u ++ w) = some n := by
  induction t with
  | nil =>
      intro n h
      cases word with
      | nil => exact absurd rfl pos
      | cons a word => simp [Text.find?] at h
  | cons c rest ih =>
      intro n h
      rw [Text.find?] at h
      split at h
      next here =>
        cases h
        obtain ⟨v, hv⟩ := List.isPrefixOf_iff_prefix.mp here
        refine ⟨word, v, hv.symm, by simp, fun w => ?_⟩
        obtain ⟨a, word, rfl⟩ := List.exists_cons_of_ne_nil pos
        rw [List.cons_append, Text.find?, if_pos]
        exact List.isPrefixOf_iff_prefix.mpr ⟨w, rfl⟩
      next later =>
        obtain ⟨m, hm, rfl⟩ := Option.map_eq_some_iff.mp h
        obtain ⟨u, v, rfl, len, stable⟩ := ih m hm
        refine ⟨c :: u, v, rfl, by simp only [List.length_cons]; omega, fun w => ?_⟩
        have notHere : ¬ Text.startsWith (c :: (u ++ w)) word = true := by
          intro here
          apply later
          rw [Text.startsWith, List.isPrefixOf_iff_prefix] at here ⊢
          have short : word.length ≤ (c :: u).length := by
            rw [List.length_cons]
            omega
          have := List.prefix_of_prefix_length_le here (List.prefix_append (c :: u) w) short
          exact this.trans (List.prefix_append (c :: u) v)
        rw [List.cons_append, Text.find?, if_neg notHere, stable w]
        rfl

/-! ## §2. Raw strings and characters by their form. -/

/-- The letters that a raw string begins with. -/
def rawLetters : List Text :=
  ["r", "br"]

theorem rawOpener?_afterLetters (letters hashes : Nat) (w : Text) :
    rawOpener?.afterLetters letters (List.replicate hashes '#' ++ '"' :: w)
      = some (letters + hashes + 1, hashes) := by
  have run : ((List.replicate hashes '#' ++ '"' :: w).takeWhile (· == '#')).length = hashes := by
    rw [List.takeWhile_append_of_pos (by intro c hc; simp [List.eq_of_mem_replicate hc])]
    simp
  rw [rawOpener?.afterLetters]
  simp only [run]
  rw [if_pos (by simp)]

theorem exists_of_afterLetters {letters k hashes : Nat} {t : Text}
    (h : rawOpener?.afterLetters letters t = some (k, hashes)) :
    ∃ w : Text, t = List.replicate hashes '#' ++ '"' :: w ∧ k = letters + hashes + 1 := by
  rw [rawOpener?.afterLetters] at h
  split at h
  next quote =>
    cases h
    have run : t.takeWhile (· == '#')
        = List.replicate (t.takeWhile (· == '#')).length '#' := by
      rw [List.eq_replicate_iff]
      exact ⟨rfl, fun c hc => by simpa using List.all_eq_true.mp List.all_takeWhile c hc⟩
    have cut : t.take (t.takeWhile (· == '#')).length = t.takeWhile (· == '#') :=
      (List.prefix_iff_eq_take.mp (List.takeWhile_prefix _)).symm
    obtain ⟨lt, atQuote⟩ := List.getElem?_eq_some_iff.mp quote
    refine ⟨t.drop ((t.takeWhile (· == '#')).length + 1), ?_, rfl⟩
    rw [← run, ← atQuote, List.getElem_cons_drop]
    calc t = t.take (t.takeWhile (· == '#')).length ++ t.drop (t.takeWhile (· == '#')).length :=
          (List.take_append_drop _ t).symm
      _ = _ := by rw [cut]
  next => cases h

/-- The opener of a raw string is its letters, its hashes and a quote. -/
theorem exists_of_rawOpener? {k hashes : Nat} {t : Text} (h : rawOpener? t = some (k, hashes)) :
    ∃ letters ∈ rawLetters, ∃ w : Text,
      t = letters ++ List.replicate hashes '#' ++ '"' :: w ∧ k = letters.length + hashes + 1 := by
  rw [rawOpener?.eq_def] at h
  split at h
  next rest =>
    obtain ⟨w, rfl, len⟩ := exists_of_afterLetters h
    exact ⟨['b', 'r'], by simp [rawLetters], w, by simp, len⟩
  next rest =>
    obtain ⟨w, rfl, len⟩ := exists_of_afterLetters h
    exact ⟨['r'], by simp [rawLetters], w, by simp, len⟩
  next => cases h

theorem rawOpener?_append {letters : Text} (h : letters ∈ rawLetters) (hashes : Nat) (w : Text) :
    rawOpener? (letters ++ List.replicate hashes '#' ++ '"' :: w)
      = some (letters.length + hashes + 1, hashes) := by
  simp only [rawLetters, List.mem_cons, List.not_mem_nil, or_false] at h
  rcases h with rfl | rfl
  · exact rawOpener?_afterLetters 1 hashes w
  · exact rawOpener?_afterLetters 2 hashes w

/-- What may follow the opening tick of a character literal, its closing tick included. -/
inductive CharacterTail : Text → Prop where
  | hex {a b : Char} (ha : isHexDigit a = true) (hb : isHexDigit b = true) :
      CharacterTail ['\\', 'x', a, b, '\'']
  | unicode {digits : Text} (some : digits ≠ []) (few : digits.length ≤ 6)
      (hex : ∀ d ∈ digits, isHexDigit d = true) :
      CharacterTail ('\\' :: 'u' :: '\x7b' :: digits ++ ['\x7d', '\''])
  | escape {c : Char} (h : c ≠ '\n') : CharacterTail ['\\', c, '\'']
  | plain {c : Char} (escape : c ≠ '\\') (tick : c ≠ '\'') (feed : c ≠ '\n') :
      CharacterTail [c, '\'']

/-- A run of characters ends where the next one has not the property. -/
theorem takeWhile_append_stop {p : Char → Bool} {u v : Text} (inside : ∀ c ∈ u, p c = true)
    (outside : ∀ c, v.head? = some c → p c = false) : (u ++ v).takeWhile p = u := by
  rw [List.takeWhile_append_of_pos inside]
  cases v with
  | nil => simp
  | cons c v => rw [List.takeWhile_cons_of_neg (by simp [outside c rfl]), List.append_nil]

theorem closedBy?_eq_some {body? : Text → Option Nat} {t : Text} {n : Nat}
    (h : closedBy? body? t = some n) :
    ∃ m, body? t = some m ∧ (t.drop m).head? = some '\'' ∧ n = m + 1 := by
  rw [closedBy?] at h
  obtain ⟨m, hm, h⟩ := Option.bind_eq_some_iff.mp h
  split at h
  next tick => exact ⟨m, hm, tick, by cases h; rfl⟩
  next => cases h

/-- A character literal is measured whatever stands behind it. -/
theorem characterLength?_append {u : Text} (h : CharacterTail u) (w : Text) :
    characterLength? (u ++ w) = some u.length := by
  cases h with
  | @hex a b ha hb =>
      simp [characterLength?, closedBy?, hexEscape?, ha, hb]
  | @unicode digits some few hex =>
      have run : ((digits ++ '\x7d' :: '\'' :: w).take 6).takeWhile isHexDigit = digits := by
        rw [List.take_append, List.take_of_length_le few]
        refine takeWhile_append_stop hex fun c hc => ?_
        rw [List.head?_take] at hc
        split at hc
        · cases hc
        · cases hc
          rfl
      have pos : 1 ≤ digits.length := List.length_pos_iff.mpr some
      simp [characterLength?, closedBy?, hexEscape?, unicodeEscape?, run, pos]
  | @escape c feed =>
      have notHex : hexEscape? ('\\' :: c :: '\'' :: w) = none := by
        rw [hexEscape?.eq_def]
        split
        next eq => cases eq; rfl
        next => rfl
      have notUnicode : unicodeEscape? ('\\' :: c :: '\'' :: w) = none := by
        rw [unicodeEscape?.eq_def]
        split
        next eq => cases eq
        next => rfl
      simp [characterLength?, closedBy?, notHex, notUnicode, plainEscape?, feed]
  | @plain c escape tick feed =>
      have notHex : hexEscape? (c :: '\'' :: w) = none := by
        rw [hexEscape?.eq_def]
        split
        next eq => cases eq
        next => rfl
      have notUnicode : unicodeEscape? (c :: '\'' :: w) = none := by
        rw [unicodeEscape?.eq_def]
        split
        next eq => cases eq
        next => rfl
      have notEscape : plainEscape? (c :: '\'' :: w) = none := by
        rw [plainEscape?.eq_def]
        split
        next eq => cases eq; exact absurd rfl escape
        next => rfl
      simp [characterLength?, closedBy?, notHex, notUnicode, notEscape, plainCharacter?,
        escape, tick, feed]

/-- A character literal has one of the forms of a character literal. -/
theorem exists_of_characterLength? {t : Text} {n : Nat} (h : characterLength? t = some n) :
    ∃ u v : Text, t = u ++ v ∧ CharacterTail u ∧ u.length = n := by
  obtain ⟨body?, mem, closed⟩ := List.exists_of_findSome?_eq_some h
  obtain ⟨m, hm, tick, rfl⟩ := closedBy?_eq_some closed
  clear h closed
  simp only [List.mem_cons, List.not_mem_nil, or_false] at mem
  rcases mem with rfl | rfl | rfl | rfl
  · rw [hexEscape?.eq_def] at hm
    split at hm
    next a b rest =>
      split at hm
      next digits =>
        cases hm
        obtain ⟨ha, hb⟩ := Bool.and_eq_true_iff.mp digits
        obtain ⟨v, rfl⟩ : ∃ v, rest = '\'' :: v := List.head?_eq_some_iff.mp tick
        exact ⟨_, v, rfl, .hex ha hb, rfl⟩
      next => cases hm
    next => cases hm
  · rw [unicodeEscape?.eq_def] at hm
    split at hm
    next rest =>
      simp only at hm
      split at hm
      next found =>
        cases hm
        obtain ⟨some, brace⟩ := Bool.and_eq_true_iff.mp found
        have inPrefix : (rest.take 6).takeWhile isHexDigit <+: rest :=
          (List.takeWhile_prefix _).trans (List.take_prefix _ _)
        obtain ⟨v, hv⟩ := inPrefix
        generalize hd : (rest.take 6).takeWhile isHexDigit = digits at *
        subst hv
        obtain ⟨v, rfl⟩ : ∃ v', v = '\x7d' :: v' := by
          rw [beq_iff_eq, List.getElem?_append_right (Nat.le_refl _), Nat.sub_self] at brace
          exact List.head?_eq_some_iff.mp (List.head?_eq_getElem? ▸ brace)
        obtain ⟨v, rfl⟩ : ∃ v', v = '\'' :: v' := by
          rw [show ('\\' :: 'u' :: '{' :: (digits ++ '\x7d' :: v)).drop (digits.length + 4) = v by
            simp [List.drop_append]] at tick
          exact List.head?_eq_some_iff.mp tick
        refine ⟨'\\' :: 'u' :: '\x7b' :: digits ++ ['\x7d', '\''], v, by simp,
          .unicode ?_ ?_ ?_, by simp⟩
        · intro none
          simp [none] at some
        · rw [← hd]
          exact Nat.le_trans (List.takeWhile_prefix _).length_le (List.length_take_le _ _)
        · intro d mem
          rw [← hd] at mem
          exact List.all_eq_true.mp List.all_takeWhile d mem
      next => cases hm
    next => cases hm
  · rw [plainEscape?.eq_def] at hm
    split at hm
    next c rest =>
      split at hm
      next => cases hm
      next feed =>
        cases hm
        obtain ⟨v, rfl⟩ : ∃ v, rest = '\'' :: v := List.head?_eq_some_iff.mp tick
        exact ⟨_, v, rfl, .escape feed, rfl⟩
    next => cases hm
  · rw [plainCharacter?.eq_def] at hm
    split at hm
    next c rest =>
      split at hm
      next => cases hm
      next plain =>
        cases hm
        simp only [Bool.or_eq_true, decide_eq_true_eq, not_or] at plain
        obtain ⟨v, rfl⟩ : ∃ v, rest = '\'' :: v := List.head?_eq_some_iff.mp tick
        exact ⟨_, v, rfl, .plain plain.1.1 plain.1.2 plain.2, rfl⟩
    next => cases hm

namespace Cursor

/-! ## §3. The lexeme at a cursor. -/

/-- A comment is a line comment or a block comment. -/
theorem comment?_some {c : Cursor} {n : Nat} (h : c.comment? = .ok (some n)) :
    (∃ rest, c.ahead = '/' :: '/' :: rest ∧ n = lineLength c.ahead)
      ∨ (∃ rest, c.ahead = '/' :: '*' :: rest ∧ blockLength? 0 c.ahead = some n) := by
  rw [comment?] at h
  split at h
  next rest eq =>
    cases h
    exact .inl ⟨rest, eq, rfl⟩
  next rest eq =>
    split at h
    next length found =>
      cases h
      exact .inr ⟨rest, eq, found⟩
    next => cases h
  next => cases h

theorem comment?_none {c : Cursor} (h : c.comment? = .ok none) :
    (∀ rest, c.ahead ≠ '/' :: '/' :: rest) ∧ (∀ rest, c.ahead ≠ '/' :: '*' :: rest) := by
  rw [comment?] at h
  split at h
  next => cases h
  next => split at h <;> cases h
  next line block => exact ⟨line, block⟩

theorem comment?_eq_none {c : Cursor} (line : ∀ rest, c.ahead ≠ '/' :: '/' :: rest)
    (block : ∀ rest, c.ahead ≠ '/' :: '*' :: rest) : c.comment? = .ok none := by
  rw [comment?]
  split
  next rest eq => exact absurd eq (line rest)
  next rest eq => exact absurd eq (block rest)
  next => rfl

/-- A literal is a raw string, a string, a character or a tick. -/
theorem literal?_some {c : Cursor} {n : Nat} (h : c.literal? = .ok (some n)) :
    (∃ k hashes m, c.rawOpener? = some (k, hashes)
        ∧ Text.find? ('"' :: List.replicate hashes '#') (c.ahead.drop k) = some m
        ∧ n = k + m + 1 + hashes)
      ∨ (c.rawOpener? = none ∧ ∃ rest m, c.ahead = '"' :: rest ∧ stringLength? rest = some m
        ∧ n = m + 1)
      ∨ (c.rawOpener? = none ∧ ∃ rest m, c.ahead = '\'' :: rest
        ∧ characterLength? rest = some m ∧ n = m + 1)
      ∨ (c.rawOpener? = none ∧ ∃ rest, c.ahead = '\'' :: rest ∧ characterLength? rest = none
        ∧ n = 1) := by
  rw [literal?] at h
  split at h
  next k hashes opener =>
    split at h
    next m found =>
      cases h
      exact .inl ⟨k, hashes, m, opener, found, rfl⟩
    next => cases h
  next noOpener =>
    split at h
    next rest eq =>
      split at h
      next m found =>
        cases h
        exact .inr (.inl ⟨noOpener, rest, m, eq, found, rfl⟩)
      next => cases h
    next rest eq =>
      split at h
      next m found =>
        cases h
        exact .inr (.inr (.inl ⟨noOpener, rest, m, eq, found, rfl⟩))
      next found =>
        cases h
        exact .inr (.inr (.inr ⟨noOpener, rest, eq, found, rfl⟩))
    next => cases h

theorem literal?_none {c : Cursor} (h : c.literal? = .ok none) :
    c.rawOpener? = none ∧ (∀ rest, c.ahead ≠ '"' :: rest) ∧ (∀ rest, c.ahead ≠ '\'' :: rest) := by
  rw [literal?] at h
  split at h
  next => split at h <;> cases h
  next noOpener =>
    split at h
    next => split at h <;> cases h
    next => split at h <;> cases h
    next string tick => exact ⟨noOpener, string, tick⟩

theorem literal?_eq_none {c : Cursor} (noOpener : c.rawOpener? = none)
    (string : ∀ rest, c.ahead ≠ '"' :: rest) (tick : ∀ rest, c.ahead ≠ '\'' :: rest) :
    c.literal? = .ok none := by
  rw [literal?.eq_def, noOpener]
  split
  next opener => cases opener
  next =>
    split
    next rest eq => exact absurd eq (string rest)
    next rest eq => exact absurd eq (tick rest)
    next => rfl

theorem lexeme?_some_iff {c : Cursor} {n : Nat} :
    c.lexeme? = .ok (some n) ↔
      c.comment? = .ok (some n) ∨ (c.comment? = .ok none ∧ c.literal? = .ok (some n)) := by
  rw [lexeme?, bind_ok_iff]
  constructor
  · rintro ⟨length?, hc, h⟩
    cases length? with
    | some length =>
        cases h
        exact .inl hc
    | none => exact .inr ⟨hc, h⟩
  · rintro (h | ⟨hc, hl⟩)
    · exact ⟨some n, h, rfl⟩
    · exact ⟨none, hc, hl⟩

theorem lexeme?_none_iff {c : Cursor} :
    c.lexeme? = .ok none ↔ c.comment? = .ok none ∧ c.literal? = .ok none := by
  rw [lexeme?, bind_ok_iff]
  constructor
  · rintro ⟨length?, hc, h⟩
    cases length? with
    | some length => cases h
    | none => exact ⟨hc, h⟩
  · rintro ⟨hc, hl⟩
    exact ⟨none, hc, hl⟩

theorem comment?_bounds {c : Cursor} {n : Nat} (h : c.comment? = .ok (some n)) :
    0 < n ∧ n ≤ c.ahead.length := by
  rcases comment?_some h with ⟨rest, eq, rfl⟩ | ⟨rest, eq, found⟩
  · exact ⟨lineLength_pos (by simp [eq]), lineLength_le _⟩
  · have := two_le_blockLength? _ _ _ found
    exact ⟨by omega, (blockLength?_settled _ _ _ found).le_length⟩

theorem rawOpener?_some {c : Cursor} {k hashes : Nat} (h : c.rawOpener? = some (k, hashes)) :
    c.atWordStart = true ∧ EnumExtract.rawOpener? c.ahead = some (k, hashes) := by
  rw [rawOpener?] at h
  split at h
  next start => exact ⟨start, h⟩
  next => cases h

theorem literal?_bounds {c : Cursor} {n : Nat} (h : c.literal? = .ok (some n)) :
    0 < n ∧ n ≤ c.ahead.length := by
  rcases literal?_some h with ⟨k, hashes, m, opener, found, rfl⟩ | ⟨_, rest, m, eq, found, rfl⟩
      | ⟨_, rest, m, eq, found, rfl⟩ | ⟨_, rest, eq, _, rfl⟩
  · obtain ⟨u, v, cut, len, _⟩ := find?_settled _ (by simp) _ _ found
    have total := congrArg List.length cut
    simp only [List.length_drop, List.length_append, List.length_cons, List.length_replicate]
      at total len
    obtain ⟨letters, _, w, _, len'⟩ := exists_of_rawOpener? (rawOpener?_some opener).2
    omega
  · have := (stringLength?_settled _ _ found).le_length
    rw [eq, List.length_cons]
    omega
  · obtain ⟨u, v, rfl, _, rfl⟩ := exists_of_characterLength? found
    rw [eq, List.length_cons, List.length_append]
    omega
  · simp [eq]

/-- A lexeme has a length, and it ends within the text. -/
theorem lexeme?_bounds {c : Cursor} {n : Nat} (h : c.lexeme? = .ok (some n)) :
    0 < n ∧ n ≤ c.ahead.length := by
  rcases lexeme?_some_iff.mp h with hc | ⟨_, hl⟩
  · exact comment?_bounds hc
  · exact literal?_bounds hl

/-- The characters that a lexeme can start with. -/
def mayStartLexeme (ch : Char) : Bool :=
  ch == '/' || ch == '"' || ch == '\'' || ch == 'r' || ch == 'b'

theorem comment?_eq_none_of_ne {c : Cursor} (h : c.ahead.head? ≠ some '/') :
    c.comment? = .ok none :=
  comment?_eq_none (fun rest eq => h (by rw [eq]; rfl)) (fun rest eq => h (by rw [eq]; rfl))

theorem rawOpener?_eq_none_of_ne {t : Text} (r : t.head? ≠ some 'r') (b : t.head? ≠ some 'b') :
    EnumExtract.rawOpener? t = none := by
  rw [EnumExtract.rawOpener?.eq_def]
  split
  · exact absurd rfl b
  · exact absurd rfl r
  · rfl

theorem lexeme?_eq_none {c : Cursor} (h : ∀ ch, c.ahead.head? = some ch → mayStartLexeme ch = false) :
    c.lexeme? = .ok none := by
  have plain : ∀ ch, mayStartLexeme ch = true → c.ahead.head? ≠ some ch := by
    intro ch may eq
    rw [h ch eq] at may
    cases may
  rw [lexeme?_none_iff]
  refine ⟨comment?_eq_none_of_ne (plain _ rfl), literal?_eq_none ?_ ?_ ?_⟩
  · rw [rawOpener?, rawOpener?_eq_none_of_ne (plain _ rfl) (plain _ rfl), ite_self]
  · exact fun rest eq => plain '"' rfl (by rw [eq]; rfl)
  · exact fun rest eq => plain '\'' rfl (by rw [eq]; rfl)

end Cursor

end EnumExtract
