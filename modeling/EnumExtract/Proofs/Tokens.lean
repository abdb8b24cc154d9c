/-
  EnumExtract.Proofs.Tokens
  ────────────────────────────────
  The tokens of a text, one after the other.

  A word ends where no word character follows; what is `Fixed` ends whatever
  follows.  Texts that are put together of both have the tokens of their
  parts.

  Main results:
    • `Fixed.word`        a word between two fixed texts,
    • `IsPath.tokens`     the tokens of a path,
    • `go_append_break`   where a text may be divided without a token being divided,
    • `tokenize_trim`     blanks at the ends of a text make no tokens.
-/
import EnumExtract.Proofs.Names
import EnumExtract.Proofs.Prelude
import EnumExtract.Schema.FieldType

namespace EnumExtract

namespace FieldType

variable {w t : Text} {rest : Text} {c : Char}

/-! ## §1. One token. -/

theorem go_claimed (k : Nat) (t : Text) : tokenize.go k t = tokenize.go 0 (t.drop k) := by
  induction k generalizing t with
  | zero => rfl
  | succ k ih =>
      cases t with
      | nil => rfl
      | cons c rest => exact ih rest

theorem go_blank (blank : isBlank c = true) : tokenize.go 0 (c :: rest) = tokenize.go 0 rest := by
  rw [tokenize.go, if_pos blank]

/-- The token in front. -/
theorem go_token (first : w.head? = some c) (notBlank : isBlank c = false)
    (length : tokenLength (w ++ rest) = w.length) :
    tokenize.go 0 (w ++ rest) = w :: tokenize.go 0 rest := by
  obtain ⟨v, rfl⟩ := List.head?_eq_some_iff.mp first
  rw [List.cons_append] at length ⊢
  rw [tokenize.go, if_neg (by rw [notBlank]; decide)]
  simp only [length]
  rw [← List.cons_append, List.take_left, go_claimed, List.length_cons, Nat.add_sub_cancel,
    List.drop_left]

theorem isNameStart_ne {c : Char} (h : isNameStart c = true) : c ≠ '\'' := by
  rintro rfl
  cases h

theorem tokenLength_name (name : IsName w) (stop : ∀ ch, rest.head? = some ch → isWord ch = false) :
    tokenLength (w ++ rest) = w.length := by
  have length := Text.nameLength_append name stop
  obtain ⟨c, v, rfl, start, _⟩ := name
  rw [List.cons_append] at length ⊢
  rw [tokenLength]
  simp only [if_neg (isNameStart_ne start), length]
  rw [if_pos (by rw [List.length_cons]; omega)]

/-- A name is one token. -/
theorem go_name (name : IsName w) (stop : ∀ ch, rest.head? = some ch → isWord ch = false) :
    tokenize.go 0 (w ++ rest) = w :: tokenize.go 0 rest := by
  have length := tokenLength_name name stop
  obtain ⟨c, v, rfl, start, _⟩ := name
  exact go_token rfl (not_isBlank_of_isWord (isWord_of_isNameStart start)) length

end FieldType

/-! ## §2. Texts and their tokens. -/

/-- The text has these tokens wherever it stands. -/
def Fixed (w : Text) (tokens : List Text) : Prop :=
  ∀ rest, FieldType.tokenize.go 0 (w ++ rest) = tokens ++ FieldType.tokenize.go 0 rest

/-- The text has these tokens where no word character follows. -/
def Spells (w : Text) (tokens : List Text) : Prop :=
  ∀ rest, (∀ ch, rest.head? = some ch → isWord ch = false) →
    FieldType.tokenize.go 0 (w ++ rest) = tokens ++ FieldType.tokenize.go 0 rest

/-- The text does not go on a word before it. -/
def Text.Parted (w : Text) : Prop :=
  ∃ ch, w.head? = some ch ∧ isWord ch = false

variable {u v w : Text} {tu tv tw : List Text}

theorem Text.Parted.append (h : w.Parted) (v : Text) :
    ∀ ch, (w ++ v).head? = some ch → isWord ch = false := by
  obtain ⟨x, first, plain⟩ := h
  obtain ⟨rest, rfl⟩ := List.head?_eq_some_iff.mp first
  intro ch eq
  obtain rfl : x = ch := Option.some.inj eq
  exact plain

theorem Fixed.tokenize (h : Fixed w tw) : FieldType.tokenize w = tw := by
  have here := h []
  rwa [List.append_nil, FieldType.tokenize.go, List.append_nil] at here

theorem Fixed.append (h : Fixed u tu) (h' : Fixed v tv) : Fixed (u ++ v) (tu ++ tv) := by
  intro rest
  rw [List.append_assoc, h, h', List.append_assoc]

/-- A word between two fixed texts. -/
theorem Fixed.word (h : Fixed u tu) (word : Spells w tw) (h' : Fixed v tv) (parted : v.Parted) :
    Fixed (u ++ w ++ v) (tu ++ (tw ++ tv)) := by
  intro rest
  rw [List.append_assoc, List.append_assoc, h, word _ (parted.append rest), h', List.append_assoc,
    List.append_assoc]

theorem Spells.nil : Spells [] [] :=
  fun _ _ => rfl

theorem Spells.cons (h : Fixed u tu) (h' : Spells v tv) : Spells (u ++ v) (tu ++ tv) := by
  intro rest stop
  rw [List.append_assoc, h, h' rest stop, List.append_assoc]

/-- Two words with a fixed text between them. -/
theorem Spells.append (h : Spells u tu) (between : Fixed w tw) (parted : w.Parted)
    (h' : Spells v tv) : Spells (u ++ w ++ v) (tu ++ (tw ++ tv)) := by
  intro rest stop
  rw [List.append_assoc, List.append_assoc, h _ (parted.append _), between, h' rest stop,
    List.append_assoc, List.append_assoc]

/-! ## §3. Identifiers and paths. -/

/-- A path: identifiers with double colons between them, perhaps one in front. -/
inductive IsPath : Text → Prop where
  | name {w : Text} (h : IsIdentifier w) : IsPath w
  | root {w : Text} (h : IsIdentifier w) : IsPath ("::" ++ w)
  | segment {p w : Text} (h : IsPath p) (name : IsIdentifier w) : IsPath (p ++ "::" ++ w)

/-- The token is a name, a hash or a double colon. -/
def IsPathToken (token : Text) : Prop :=
  IsName token ∨ token = "#" ∨ token = "::"

/-- The tokens of a path. -/
structure PathTokens (p : Text) (tokens : List Text) : Prop where
  spells : Spells p tokens
  parts : ∀ token ∈ tokens, IsPathToken token
  flatten : tokens.flatten = p
  nonempty : tokens ≠ []

theorem fixed_colons : Fixed "::" ["::"] :=
  fun _ => rfl

theorem parted_colons : Text.Parted "::" :=
  ⟨':', rfl, rfl⟩

theorem IsName.tokens (name : IsName w) : PathTokens w [w] where
  spells _ stop := FieldType.go_name name stop
  parts := List.forall_mem_singleton.mpr (.inl name)
  flatten := List.flatten_singleton
  nonempty := List.cons_ne_nil _ _

theorem IsIdentifier.tokens (h : IsIdentifier w) : ∃ tokens, PathTokens w tokens := by
  rcases h with name | ⟨n, name, rfl⟩
  · exact ⟨[w], name.tokens⟩
  · have raw : Fixed ['r', '#'] [['r'], ['#']] := fun _ => rfl
    refine ⟨[['r'], ['#'], n], .cons raw fun rest stop => FieldType.go_name name stop,
      fun token mem => ?_, by simp, by simp⟩
    rw [List.mem_cons, List.mem_cons, List.mem_singleton] at mem
    rcases mem with rfl | rfl | rfl
    · exact .inl ⟨'r', [], rfl, rfl, nofun⟩
    · exact .inr (.inl rfl)
    · exact .inl name

/-- A path that goes on with another one. -/
theorem PathTokens.segment (h : PathTokens u tu) (h' : PathTokens v tv) :
    PathTokens (u ++ "::" ++ v) (tu ++ (["::".toList] ++ tv)) where
  spells := h.spells.append fixed_colons parted_colons h'.spells
  parts := by
    intro token mem
    rw [List.mem_append, List.mem_append, List.mem_singleton] at mem
    rcases mem with mem | rfl | mem
    · exact h.parts token mem
    · exact .inr (.inr rfl)
    · exact h'.parts token mem
  flatten := by
    rw [List.flatten_append, List.flatten_append, h.flatten, h'.flatten, List.append_assoc]
    rfl
  nonempty := by simp

theorem IsPath.tokens (h : IsPath w) : ∃ tokens, PathTokens w tokens := by
  induction h with
  | name h => exact h.tokens
  | root h =>
      obtain ⟨tokens, ht⟩ := h.tokens
      refine ⟨"::" :: tokens, .cons fixed_colons ht.spells, ?_, by rw [List.flatten_cons, ht.flatten],
        List.cons_ne_nil _ _⟩
      exact List.forall_mem_cons.mpr ⟨.inr (.inr rfl), ht.parts⟩
  | segment _ name ih =>
      obtain ⟨tokens, ht⟩ := ih
      obtain ⟨tokens', ht'⟩ := name.tokens
      exact ⟨_, ht.segment ht'⟩

namespace FieldType

/-! ## §4. Breaks. -/

/-- A character that is no part of a token begun before it. -/
def isBreak (f : Char) : Bool :=
  !isWord f && f != '.' && f != ':' && f != '>'

section Breaks

variable {f c : Char} {u w : Text}

theorem takeWhile_append_cons {p : Char → Bool} (stop : p f = false) :
    (u ++ f :: w).takeWhile p = u.takeWhile p := by
  induction u with
  | nil => simp [stop]
  | cons ch u ih => rw [List.cons_append, List.takeWhile_cons, List.takeWhile_cons, ih]

theorem nameLength_append_cons (stop : isWord f = false) :
    Text.nameLength (u ++ f :: w) = Text.nameLength u := by
  cases u with
  | nil =>
      refine Text.nameLength_eq_zero fun ch first => ?_
      cases first
      by_contra start
      rw [Bool.not_eq_false] at start
      rw [isWord_of_isNameStart start] at stop
      cases stop
  | cons ch u => rw [List.cons_append, Text.nameLength, Text.nameLength, takeWhile_append_cons stop]

theorem startsWith_pair_append_cons {a b : Char} (other : b ≠ f) :
    Text.startsWith (c :: u ++ f :: w) [a, b] = Text.startsWith (c :: u) [a, b] := by
  cases u with
  | nil => simp [Text.startsWith, List.isPrefixOf, other]
  | cons ch u => simp [Text.startsWith, List.isPrefixOf]

/-- A break does not change how long the token before it is. -/
theorem tokenLength_append_cons (h : isBreak f = true) :
    tokenLength (c :: u ++ f :: w) = tokenLength (c :: u) := by
  simp only [isBreak, Bool.and_eq_true, Bool.not_eq_true', bne_iff_ne] at h
  obtain ⟨⟨⟨word, dot⟩, colon⟩, greater⟩ := h
  have name := nameLength_append_cons (u := u) (w := w) word
  have nameHere := nameLength_append_cons (u := c :: u) (w := w) word
  have number : (u ++ f :: w).takeWhile (fun d => isWord d || d == '.')
      = u.takeWhile fun d => isWord d || d == '.' :=
    takeWhile_append_cons (by simp [word, dot])
  have colons := startsWith_pair_append_cons (c := c) (u := u) (w := w) (a := ':') (Ne.symm colon)
  have arrow := startsWith_pair_append_cons (c := c) (u := u) (w := w) (a := '-') (Ne.symm greater)
  have fat := startsWith_pair_append_cons (c := c) (u := u) (w := w) (a := '=') (Ne.symm greater)
  rw [List.cons_append] at nameHere colons arrow fat ⊢
  rw [tokenLength, tokenLength]
  have marks : (["::", "->", "=>"] : List Text).any (Text.startsWith (c :: (u ++ f :: w)))
      = (["::", "->", "=>"] : List Text).any (Text.startsWith (c :: u)) := by
    simp only [List.any_cons, List.any_nil]
    rw [show (("::" : String) : Text) = [':', ':'] from rfl, show (("->" : String) : Text) = ['-', '>'] from rfl,
      show (("=>" : String) : Text) = ['=', '>'] from rfl, colons, arrow, fat]
  simp only [name, nameHere, number, marks]

theorem nameLength_le (t : Text) : Text.nameLength t ≤ t.length := by
  rcases Text.nameLength_cases t with ⟨zero, _⟩ | ⟨w, rest, rfl, _, length, _⟩
  · omega
  · rw [← length, List.length_append]
    omega

theorem tokenLength_bounds (c : Char) (t : Text) :
    0 < tokenLength (c :: t) ∧ tokenLength (c :: t) ≤ (c :: t).length := by
  have behind := nameLength_le t
  have here := nameLength_le (c :: t)
  have number := (List.takeWhile_sublist (fun d => isWord d || d == '.') (l := t)).length_le
  have pair (h : (["::", "->", "=>"] : List Text).any (Text.startsWith (c :: t)) = true) :
      2 ≤ (c :: t).length := by
    obtain ⟨word, mem, starts⟩ := List.any_eq_true.mp h
    have le := (List.isPrefixOf_iff_prefix.mp starts).length_le
    simp only [List.mem_cons, List.not_mem_nil, or_false] at mem
    rcases mem with rfl | rfl | rfl <;> exact le
  rw [tokenLength]
  rw [List.length_cons] at pair here ⊢
  split_ifs
  all_goals first | omega | exact ⟨by decide, pair ‹_›⟩

/-- The tokens before a break and those from it on. -/
theorem go_append_break {f : Char} (h : isBreak f = true) (w : Text) : ∀ u : Text,
    tokenize.go 0 (u ++ f :: w) = tokenize.go 0 u ++ tokenize.go 0 (f :: w)
  | [] => rfl
  | c :: u => by
      by_cases blank : isBlank c = true
      · rw [List.cons_append, go_blank blank, go_blank blank, go_append_break h w u]
      · obtain ⟨pos, le⟩ := tokenLength_bounds c u
        have token {v : Text} : tokenize.go 0 (c :: v) = (c :: v).take (tokenLength (c :: v))
            :: tokenize.go 0 (v.drop (tokenLength (c :: v) - 1)) := by
          rw [tokenize.go, if_neg blank, ← go_claimed]
        have same := tokenLength_append_cons (c := c) (u := u) (w := w) h
        rw [List.cons_append] at same
        rw [List.length_cons] at le
        rw [List.cons_append, token, token, same, ← List.cons_append,
          List.take_append_of_le_length (by rw [List.length_cons]; omega),
          List.drop_append_of_le_length (by omega), go_append_break h w (u.drop _)]
        rfl
  termination_by u => u.length
  decreasing_by all_goals simp; try omega

theorem go_blanks {b : Text} (blank : ∀ ch ∈ b, isBlank ch = true) :
    tokenize.go 0 (b ++ w) = tokenize.go 0 w := by
  induction b with
  | nil => rfl
  | cons ch b ih =>
      rw [List.cons_append, go_blank (blank ch List.mem_cons_self),
        ih fun ch mem => blank ch (List.mem_cons_of_mem _ mem)]

theorem isBreak_of_isBlank (blank : isBlank f = true) : isBreak f = true := by
  have other (ch : Char) (plain : isBlank ch = false) : (f != ch) = true := by
    rw [bne_iff_ne]
    rintro rfl
    rw [plain] at blank
    cases blank
  have word : isWord f = false := by
    by_contra word
    rw [Bool.not_eq_false] at word
    rw [not_isBlank_of_isWord word] at blank
    cases blank
  rw [isBreak, word, other '.' rfl, other ':' rfl, other '>' rfl]
  rfl

/-- Blanks at the ends of a text make no tokens. -/
theorem tokenize_trim (t : Text) : tokenize (Text.trim t) = tokenize t := by
  obtain ⟨b, eq, blank⟩ := Text.exists_trimEnd_append t.trimStart
  have start : tokenize t.trimStart = tokenize t := by
    have split := List.takeWhile_append_dropWhile (p := isBlank) (l := t)
    have skip := go_blanks (b := t.takeWhile isBlank) (w := t.trimStart) fun ch mem =>
      List.all_eq_true.mp List.all_takeWhile ch mem
    rw [Text.trimStart, split] at skip
    exact skip.symm
  rw [← start, Text.trim]
  cases b with
  | nil => rw [← List.append_nil t.trimStart.trimEnd, ← eq]
  | cons f b =>
      have rest : tokenize.go 0 (f :: b) = [] := by
        have skip := go_blanks (b := f :: b) (w := []) blank
        rwa [List.append_nil] at skip
      have break' := go_append_break (isBreak_of_isBlank (blank f List.mem_cons_self)) b t.trimStart.trimEnd
      rw [rest, List.append_nil, ← eq] at break'
      exact break'.symm

end Breaks
end FieldType

end EnumExtract
