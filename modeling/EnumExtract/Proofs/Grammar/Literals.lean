/-
  EnumExtract.Proofs.Grammar.Literals
  ────────────────────────────────
  Literals as they are written, with the letters in front of them.

      "…"   b"…"   c"…"      strings of characters, of bytes, and for C
      r"…"  r#"…"#  br"…"    raw strings
      'x'   '\n'   b'x'      characters and bytes

  The letters of a raw string belong to its lexeme; the others are read as a word
  that no blank parts from the lexeme.  Literals are those whose lexeme is read as a
  whole: a character with an underscore in the braces of its escape is none here,
  nor is a raw string for C.

  Main results:
    • `Literal.lexeme?_eq`   the lexeme of a literal is passed over as a whole,
    • `Literal.reads`        a literal is read to its end, and nothing but its letters is code.
-/
import EnumExtract.Proofs.Grammar.Trees

namespace EnumExtract

open Cursor

/-! ## §1. Literals. -/

/-- The letters that may stand in front of a string that is not raw. -/
def stringLetters : List Text := ["", "b", "c"]

/-- The letters that may stand in front of a character. -/
def characterLetters : List Text := ["", "b"]

theorem characterLetters_subset : characterLetters ⊆ stringLetters := by decide

/-- The characters that a literal may begin with. -/
def literalStarts : List Char := ['b', 'c', 'r', '"', '\'']

inductive Literal where
  | string (letters body : Text) (mem : letters ∈ stringLetters) (h : IsStringBody body)
  | rawString (letters body : Text) (hashes : Nat) (mem : letters ∈ rawLetters)
      (closed : ¬ rawCloser hashes <:+: body)
  /-- The text is what stands behind the opening tick. -/
  | character (letters rest : Text) (mem : letters ∈ characterLetters) (h : CharacterTail rest)

namespace Literal

/-- The letters in front of the lexeme. -/
def letters : Literal → Text
  | string u .. | character u .. => u
  | rawString .. => []

def lexeme : Literal → Text
  | string _ body _ _ => '"' :: body ++ ['"']
  | rawString u body hashes _ _ => u ++ List.replicate hashes '#' ++ '"' :: body ++ rawCloser hashes
  | character _ rest _ _ => '\'' :: rest

def text (l : Literal) : Text :=
  l.letters ++ l.lexeme

/-- A name is read where the literal stands. -/
def startsName : Literal → Bool
  | rawString .. => true
  | l => !l.letters.isEmpty

variable (l : Literal)

theorem letters_mem : l.letters ∈ stringLetters := by
  cases l with
  | string u body mem h => exact mem
  | rawString => exact List.mem_cons_self
  | character u rest mem h => exact characterLetters_subset mem

/-- No letters in front of a lexeme make a raw string of it. -/
theorem letters_plain : (∀ ch ∈ l.letters, isWord ch = true) ∧ l.letters ∉ rawLetters := by
  have plain : ∀ u ∈ stringLetters, (∀ ch ∈ u, isWord ch = true) ∧ u ∉ rawLetters := by decide
  exact plain _ l.letters_mem

/-- A lexeme begins with a quote, if it is not that of a raw string. -/
theorem exists_lexeme : ∃ ch ∈ ['"', '\'', 'r', 'b'], ∃ v, l.lexeme = ch :: v
    ∧ (isWord ch = true → l.letters = [] ∧ l.startsName = true) := by
  cases l with
  | string u body mem h => exact ⟨'"', by decide, _, rfl, nofun⟩
  | character u rest mem h => exact ⟨'\'', by decide, _, rfl, nofun⟩
  | rawString u body hashes mem closed =>
      simp only [rawLetters, List.mem_cons, List.not_mem_nil, or_false] at mem
      rcases mem with rfl | rfl
      · exact ⟨'r', by decide, _, rfl, fun _ => ⟨rfl, rfl⟩⟩
      · exact ⟨'b', by decide, _, rfl, fun _ => ⟨rfl, rfl⟩⟩

/-- The character behind the letters goes on no word. -/
theorem not_isWord_of_lexeme (some : l.letters ≠ []) (w : Text) :
    ∀ ch, (l.lexeme ++ w).head? = .some ch → isWord ch = false := by
  obtain ⟨x, _, v, shape, word⟩ := l.exists_lexeme
  rw [shape]
  rintro _ ⟨⟩
  by_contra isWord
  exact some (word (by simpa using isWord)).1

theorem exists_first : ∃ ch ∈ literalStarts, ∃ v, l.text = ch :: v
    ∧ (l.startsName = false → isNameStart ch = false) := by
  obtain ⟨x, inside, v, shape, word⟩ := l.exists_lexeme
  have mem := l.letters_mem
  simp only [stringLetters, List.mem_cons, List.not_mem_nil, or_false] at mem
  rw [text]
  rcases mem with none | same | same
  · rw [none, shape]
    have first : ∀ ch ∈ ['"', '\'', 'r', 'b'], ch ∈ literalStarts := by decide
    refine ⟨x, first x inside, v, rfl, fun noName => ?_⟩
    by_contra start
    rw [Bool.not_eq_false] at start
    rw [(word (isWord_of_isNameStart start)).2] at noName
    cases noName
  all_goals
    rw [same]
    refine ⟨_, by decide, l.lexeme, rfl, fun noName => ?_⟩
    cases l with
    | rawString => cases noName
    | string | character =>
        cases same
        cases noName

/-- Behind the letters stands a quote, or a hash of a raw string. -/
theorem exists_quote : ∃ u, ∃ q ∈ ['"', '\'', '#'], ∃ v, l.text = u ++ q :: v ∧ ∀ ch ∈ u, isWord ch = true := by
  cases l with
  | string u body mem h => exact ⟨u, '"', by decide, body ++ ['"'], rfl, (string u body mem h).letters_plain.1⟩
  | character u rest mem h => exact ⟨u, '\'', by decide, rest, rfl, (character u rest mem h).letters_plain.1⟩
  | rawString u body hashes mem closed =>
      have word : ∀ u ∈ rawLetters, ∀ ch ∈ u, isWord ch = true := by decide
      cases hashes with
      | zero => exact ⟨u, '"', by decide, body ++ rawCloser 0, by simp [text, letters, lexeme], word u mem⟩
      | succ n =>
          exact ⟨u, '#', by decide, List.replicate n '#' ++ '"' :: (body ++ rawCloser (n + 1)),
            by simp [text, letters, lexeme, List.replicate_succ], word u mem⟩

theorem exists_last : ∃ v, ∃ ch ∈ ['"', '\'', '#'], l.text = v ++ [ch] := by
  suffices h : ∃ v, ∃ ch ∈ ['"', '\'', '#'], l.lexeme = v ++ [ch] by
    obtain ⟨v, ch, mem, last⟩ := h
    exact ⟨l.letters ++ v, ch, mem, by rw [text, last, List.append_assoc]⟩
  cases l with
  | string u body mem h => exact ⟨'"' :: body, '"', by decide, rfl⟩
  | character u rest mem h =>
      obtain ⟨v, rfl⟩ := h.exists_last
      exact ⟨'\'' :: v, '\'', by decide, rfl⟩
  | rawString u body hashes mem closed =>
      cases hashes with
      | zero => exact ⟨u ++ '"' :: body, '"', by decide, by simp [lexeme, rawCloser]⟩
      | succ n =>
          exact ⟨u ++ List.replicate (n + 1) '#' ++ '"' :: body ++ rawCloser n, '#', by decide,
            by simp [lexeme, rawCloser, List.replicate_succ']⟩

theorem text_ne_nil : l.text ≠ [] := by
  obtain ⟨ch, _, v, shape, _⟩ := l.exists_first
  rw [shape]
  exact List.cons_ne_nil ch v

/-! ## §2. Reading a literal. -/

variable {l} {c : Cursor} {w : Text}

/-- **The lexeme of a literal is passed over as a whole.** -/
theorem lexeme?_eq (eq : c.ahead = l.lexeme ++ w) (fresh : c.Fresh) :
    c.lexeme? = .ok (some l.lexeme.length) := by
  cases l with
  | string u body mem h =>
      have whole := lexeme?_string (c := c) (w := w) h (by rw [eq]; simp [lexeme])
      rw [whole]
      simp [lexeme]
  | rawString u body hashes mem closed =>
      have start := fresh.rawLetters mem (by rw [eq]; simp [lexeme])
      have whole := lexeme?_rawString (c := c) (w := w) mem closed start (by rw [eq]; simp [lexeme])
      rw [whole]
      simp only [lexeme, rawCloser, List.length_append, List.length_replicate, List.length_cons]
      congr 2
      omega
  | character u rest mem h => exact lexeme?_character (c := c) (w := w) h eq

/-- The lexeme stands behind the letters. -/
theorem ahead_lexeme (eq : c.ahead = l.text ++ w) :
    (c.advance l.letters.length).ahead = l.lexeme ++ w := by
  rw [text, List.append_assoc] at eq
  exact ahead_advance eq

/-- A raw string begins at the start of a word. -/
theorem fresh_lexeme (eq : c.ahead = l.text ++ w) (fresh : c.Fresh) : (c.advance l.letters.length).Fresh := by
  by_cases none : l.letters = []
  · rwa [none, List.length_nil, advance_zero]
  · refine .of_stop fun ch first => ?_
    rw [ahead_lexeme eq] at first
    exact l.not_isWord_of_lexeme none w ch first

/-- The letters are read as code. -/
theorem reads_letters (eq : c.ahead = l.text ++ w) :
    ∃ code, Reads c code (c.advance l.letters.length) ∧ chars code = l.letters := by
  by_cases none : l.letters = []
  · rw [none, List.length_nil, advance_zero]
    exact ⟨[], .here c, rfl⟩
  · rw [text, List.append_assoc] at eq
    obtain ⟨word, free⟩ := l.letters_plain
    have noOpener : c.rawOpener? = .none := by
      rw [Cursor.rawOpener?, eq, rawOpener?_word word (l.not_isWord_of_lexeme none w) fun raw => absurd raw free,
        ite_self]
    exact reads_word eq (fun ch mem => .inl (word ch mem)) (plainWord_of_first eq word noOpener)

/-- **A literal is read to its end**, and nothing but its letters is code. -/
theorem reads (eq : c.ahead = l.text ++ w) (fresh : c.Fresh) :
    ∃ code, Reads c code (c.advance l.text.length) ∧ chars code = l.letters := by
  obtain ⟨code, reads, letters⟩ := reads_letters eq
  have lexeme := lexeme?_eq (ahead_lexeme eq) (fresh_lexeme eq fresh)
  have ends := Reads.lexeme lexeme (.here _)
  have all := reads.onward ends
  rw [List.append_nil] at all
  exact ⟨code, all, letters⟩

/-- No word goes on behind a literal. -/
theorem fresh_behind (eq : c.ahead = l.text ++ w) : (c.advance l.text.length).Fresh := by
  obtain ⟨v, ch, mem, last⟩ := l.exists_last
  have plain : ∀ ch ∈ ['"', '\'', '#'], isWord ch = false := by decide
  rw [last, List.length_append, List.length_singleton]
  rw [last, List.append_assoc, List.singleton_append] at eq
  exact .behind eq (plain ch mem)

theorem readsTree (eq : c.ahead = l.text ++ w) (fresh : c.Fresh) : c.ReadsTree l.text := by
  obtain ⟨code, reads, letters⟩ := reads eq fresh
  refine ⟨⟨code, reads, .of_plain fun ch mem => ?_⟩, fresh_behind eq⟩
  rw [letters] at mem
  exact bracketWeight_of_isWord (.inl (l.letters_plain.1 ch mem))

end Literal

end EnumExtract
