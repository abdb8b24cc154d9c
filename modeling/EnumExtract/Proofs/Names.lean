/-
  EnumExtract.Proofs.Names
  ────────────────────────────────
  Identifiers and visibilities, and why a reading passes them character by
  character.

  An identifier is found by the shape of the text alone, while a lexeme may
  also begin in the middle of it: the `r` of `r"…"` is the name `r` for the
  one and the opener of a raw string for the other.  Such an opener apart, a
  word holds no lexeme, and it leaves the level as it is.

  Main results:
    • `identifier?_some`        what an identifier is made of,
    • `Level.identifier`        it leaves the level as it is, if no raw string opens in it,
    • `readVisibility_ok_iff`   a visibility is none, `pub`, or `pub` and a scope,
    • `Visibility.spec`         it leaves the level as it is, too.
-/
import EnumExtract.Proofs.Trivia
import EnumExtract.Source.Visibility

namespace EnumExtract

/-! ## §1. Words. -/

/-- A name start, then word characters. -/
def IsName (w : Text) : Prop :=
  ∃ c v, w = c :: v ∧ isNameStart c = true ∧ ∀ ch ∈ v, isWord ch = true

/-- A name, or a name behind `r#`. -/
def IsIdentifier (w : Text) : Prop :=
  IsName w ∨ ∃ n, IsName n ∧ w = 'r' :: '#' :: n

theorem isWord_of_isNameStart {c : Char} (h : isNameStart c = true) : isWord c = true := by
  rw [isNameStart, Bool.or_eq_true, beq_iff_eq] at h
  rcases h with h | rfl
  · have small : c.toNat < 0x80 := by
      have letter : (decide (c.val ≥ 'A'.val ∧ c.val ≤ 'Z'.val)
          || (decide (c.val ≥ 'a'.val) && decide (c.val ≤ 'z'.val))) = true := h
      simp only [Bool.or_eq_true, Bool.and_eq_true, decide_eq_true_iff] at letter
      show c.val.toNat < 0x80
      rcases letter with ⟨_, le⟩ | ⟨_, le⟩
      · exact Nat.lt_of_le_of_lt (UInt32.le_iff_toNat_le.mp le) (by decide)
      · exact Nat.lt_of_le_of_lt (UInt32.le_iff_toNat_le.mp le) (by decide)
    rw [isWord, if_pos small, Bool.or_eq_true]
    exact .inl (by rw [Char.isAlphanum, h, Bool.true_or])
  · rfl

theorem isWord_of_isDigit {c : Char} (h : c.isDigit = true) : isWord c = true := by
  have small : c.toNat < 0x80 := by
    simp only [Char.isDigit, Bool.and_eq_true, decide_eq_true_iff, ge_iff_le,
      UInt32.le_iff_toNat_le] at h
    have : c.toNat = c.val.toNat := rfl
    simp at h
    omega
  rw [isWord, if_pos small, Char.isAlphanum, h, Bool.or_true, Bool.true_or]

theorem IsName.isWord {w : Text} (h : IsName w) : ∀ ch ∈ w, isWord ch = true := by
  obtain ⟨c, v, rfl, start, word⟩ := h
  intro ch mem
  rcases List.mem_cons.mp mem with rfl | mem
  · exact isWord_of_isNameStart start
  · exact word ch mem

theorem IsName.ne_nil {w : Text} (h : IsName w) : w ≠ [] := by
  obtain ⟨c, v, rfl, _⟩ := h
  exact List.cons_ne_nil c v

theorem IsIdentifier.ne_nil {w : Text} (h : IsIdentifier w) : w ≠ [] := by
  rcases h with h | ⟨n, _, rfl⟩
  · exact h.ne_nil
  · exact List.cons_ne_nil _ _

theorem IsIdentifier.isWord {w : Text} (h : IsIdentifier w) :
    ∀ ch ∈ w, isWord ch = true ∨ ch = '#' := by
  rcases h with h | ⟨n, h, rfl⟩
  · exact fun ch mem => .inl (h.isWord ch mem)
  · intro ch mem
    rcases List.mem_cons.mp mem with rfl | mem
    · exact .inl rfl
    · rcases List.mem_cons.mp mem with rfl | mem
      · exact .inr rfl
      · exact .inl (h.isWord ch mem)

theorem bracketWeight_of_isWord {ch : Char} (h : isWord ch = true ∨ ch = '#') :
    bracketWeight ch = 0 := by
  rcases h with h | rfl
  · rw [bracketWeight]
    have opens : closer? ch = none := by
      rw [closer?.eq_def]
      split <;> first | rfl | cases h
    rw [opens]
    cases closes : isCloser ch with
    | false => rfl
    | true =>
        simp only [isCloser, Bool.or_eq_true, beq_iff_eq] at closes
        rcases closes with (rfl | rfl) | rfl <;> cases h
  · rfl

/-- The code points of the blanks. -/
def blankCodes : List Nat :=
  [0x09, 0x0A, 0x0B, 0x0C, 0x0D, 0x1C, 0x1D, 0x1E, 0x1F, 0x20, 0x85, 0xA0, 0x1680, 0x2000, 0x2001,
   0x2002, 0x2003, 0x2004, 0x2005, 0x2006, 0x2007, 0x2008, 0x2009, 0x200A, 0x2028, 0x2029, 0x202F,
   0x205F, 0x3000]

theorem mem_blankCodes {ch : Char} (h : isBlank ch = true) : ch.toNat ∈ blankCodes := by
  simp only [isBlank, Bool.or_eq_true, Bool.and_eq_true, decide_eq_true_iff, beq_iff_eq] at h
  simp only [blankCodes, List.mem_cons, List.not_mem_nil, or_false]
  omega

theorem not_isBlank_of_isWord {ch : Char} (h : isWord ch = true) : isBlank ch = false := by
  rw [Bool.eq_false_iff]
  intro blank
  have none : ∀ n ∈ blankCodes, isWord (Char.ofNat n) = false := by decide +kernel
  rw [← Char.ofNat_toNat ch, none _ (mem_blankCodes blank)] at h
  cases h

theorem level_of_isWord {w : List Char} (h : ∀ ch ∈ w, isWord ch = true ∨ ch = '#') :
    level w = 0 :=
  level_eq_zero fun ch mem => bracketWeight_of_isWord (h ch mem)

namespace Text

theorem nameLength_cases (t : Text) :
    (nameLength t = 0 ∧ ∀ ch, t.head? = some ch → isNameStart ch = false)
      ∨ ∃ w rest, t = w ++ rest ∧ IsName w ∧ w.length = nameLength t
        ∧ ∀ ch, rest.head? = some ch → isWord ch = false := by
  cases t with
  | nil => exact .inl ⟨rfl, nofun⟩
  | cons c rest =>
      rw [nameLength]
      split
      next start =>
        refine .inr ⟨c :: rest.takeWhile isWord, rest.dropWhile isWord, ?_, ?_, ?_, ?_⟩
        · rw [List.cons_append, List.takeWhile_append_dropWhile]
        · exact ⟨c, _, rfl, start, fun ch mem => List.all_eq_true.mp List.all_takeWhile ch mem⟩
        · rfl
        · intro ch first
          have := List.head?_dropWhile_not isWord rest
          rw [first] at this
          simpa using this
      next start =>
        refine .inl ⟨rfl, fun ch first => ?_⟩
        cases first
        simpa using start

/-- An identifier is a name, perhaps behind `r#`, and ends where the word does. -/
theorem identifier?_some {t w : Text} (h : identifier? t = some w) :
    ∃ rest, t = w ++ rest ∧ IsIdentifier w ∧ ∀ ch, rest.head? = some ch → isWord ch = false := by
  rw [identifier?] at h
  split at h
  next => cases h
  next found =>
    cases h
    rw [identifierLength.eq_def] at found ⊢
    split at found
    next rest =>
      rcases nameLength_cases rest with ⟨none, start⟩ | ⟨w, rest, rfl, name, len, stop⟩
      · rw [if_pos none]
        exact ⟨_, rfl, .inl ⟨'r', [], rfl, rfl, nofun⟩, fun ch first => by cases first; rfl⟩
      · have pos := List.length_pos_of_ne_nil name.ne_nil
        rw [if_neg (by omega), ← len]
        have cut : ('r' :: '#' :: (w ++ rest)).take (w.length + 2) = 'r' :: '#' :: w := by simp
        rw [cut]
        exact ⟨rest, rfl, .inr ⟨w, name, rfl⟩, stop⟩
    next =>
      rcases nameLength_cases t with ⟨none, _⟩ | ⟨w, rest, rfl, name, len, stop⟩
      · exact absurd none found
      · refine ⟨rest, ?_, ?_, stop⟩ <;> rw [← len, List.take_left]
        exact .inl name

/-- A name ends where the word does. -/
theorem nameLength_append {w rest : Text} (name : IsName w)
    (stop : ∀ ch, rest.head? = some ch → isWord ch = false) : nameLength (w ++ rest) = w.length := by
  obtain ⟨c, v, rfl, start, word⟩ := name
  rw [List.cons_append, nameLength, if_pos start, takeWhile_append_stop word stop, List.length_cons]

theorem nameLength_eq_zero {t : Text} (h : ∀ ch, t.head? = some ch → isNameStart ch = false) :
    nameLength t = 0 := by
  cases t with
  | nil => rfl
  | cons c rest => rw [nameLength, if_neg (by rw [h c rfl]; exact Bool.false_ne_true)]

/-- **An identifier is found** in front of what does not go on with it; behind the name `r` that
is a hash with a name behind it, too. -/
theorem identifier?_append {w rest : Text} (h : IsIdentifier w)
    (stop : ∀ ch, rest.head? = some ch → isWord ch = false)
    (raw : w = ['r'] → ∀ v, rest = '#' :: v → nameLength v = 0) :
    identifier? (w ++ rest) = some w := by
  have length : identifierLength (w ++ rest) = w.length := by
    rcases h with name | ⟨n, name, rfl⟩
    · rw [identifierLength.eq_def]
      split
      next v eq =>
        obtain ⟨c, u, rfl, start, word⟩ := name
        cases u with
        | nil =>
            obtain ⟨rfl, rest⟩ := List.cons.inj eq
            rw [if_pos (raw rfl v rest)]
            rfl
        | cons x u =>
            -- a hash is no part of a name
            obtain ⟨_, tail⟩ := List.cons.inj eq
            have hash := word x List.mem_cons_self
            rw [(List.cons.inj tail).1] at hash
            cases hash
      next => exact nameLength_append name stop
    · have found := nameLength_append name stop
      have pos := List.length_pos_of_ne_nil name.ne_nil
      show (if nameLength (n ++ rest) = 0 then 1 else nameLength (n ++ rest) + 2) = n.length + 2
      rw [found, if_neg (by omega)]
  have pos := List.length_pos_of_ne_nil h.ne_nil
  rw [identifier?, length, if_neg (by omega), List.take_left]

/-- No name goes on behind an `r#` that is read as the name `r`. -/
theorem nameLength_of_identifier? {v : Text} (h : identifier? ('r' :: '#' :: v) = some ['r']) :
    nameLength v = 0 := by
  rw [identifier?] at h
  split at h
  next => cases h
  next =>
    have long := congrArg List.length (Option.some.inj h)
    rw [List.length_take] at long
    show nameLength v = 0
    by_cases none : nameLength v = 0
    · exact none
    · have two : identifierLength ('r' :: '#' :: v) = nameLength v + 2 := if_neg none
      rw [two] at long
      simp only [List.length_cons, List.length_nil] at long
      omega

/-- The word holds word characters only, and begins with no letter that a raw string may begin
with.  All words of the language that a reader looks for are such. -/
def isKeyword (w : Text) : Bool :=
  w.all isWord && w.head? != some 'r' && w.head? != some 'b'

theorem isWord_of_isKeyword {w : Text} (h : w.isKeyword = true) :
    ∀ ch ∈ w, isWord ch = true ∨ ch = '#' := by
  rw [isKeyword, Bool.and_eq_true, Bool.and_eq_true] at h
  exact fun ch mem => .inl (List.all_eq_true.mp h.1.1 ch mem)

theorem ne_hash_of_isKeyword {w : Text} (h : w.isKeyword = true) : ∀ ch ∈ w, ch ≠ '#' := by
  rw [isKeyword, Bool.and_eq_true, Bool.and_eq_true] at h
  rintro ch mem rfl
  cases List.all_eq_true.mp h.1.1 '#' mem

end Text

/-! ## §2. Words in a reading. -/

/-- No raw string opens in front of a character that has no part in its opener. -/
theorem rawOpener?_eq_none_of_stop {u rest : Text} {stop : Char}
    (inside : ∀ ch ∈ u, ch ≠ '#' ∧ ch ≠ '"')
    (outside : stop ≠ '#' ∧ stop ≠ '"' ∧ stop ≠ 'r' ∧ stop ≠ 'b') :
    rawOpener? (u ++ stop :: rest) = none := by
  cases h : rawOpener? (u ++ stop :: rest) with
  | none => rfl
  | some found =>
      obtain ⟨k, hashes⟩ := found
      obtain ⟨letters, mem, w, eq, _⟩ := exists_of_rawOpener? h
      obtain ⟨c, v, hc, tail⟩ : ∃ c v, (c = '#' ∨ c = '"')
          ∧ List.replicate hashes '#' ++ '"' :: w = c :: v := by
        cases hashes with
        | zero => exact ⟨'"', w, .inr rfl, rfl⟩
        | succ n => exact ⟨'#', _, .inl rfl, by rw [List.replicate_succ, List.cons_append]⟩
      rw [List.append_assoc, tail] at eq
      have plain : stop ≠ c := by
        rintro rfl
        rcases hc with rfl | rfl
        · exact outside.1 rfl
        · exact outside.2.1 rfl
      have absent : c ∉ u := by
        intro mem
        rcases hc with rfl | rfl
        · exact (inside _ mem).1 rfl
        · exact (inside _ mem).2 rfl
      simp only [rawLetters, List.mem_cons, List.not_mem_nil, or_false] at mem
      rcases mem with rfl | rfl
      · rcases u with _ | ⟨a, _ | ⟨b, u⟩⟩
        · exact absurd (List.cons.inj eq).1 outside.2.2.1
        · exact absurd (List.cons.inj (List.cons.inj eq).2).1 plain
        · have same := (List.cons.inj (List.cons.inj eq).2).1
          exact absurd (by simp [same]) absent
      · rcases u with _ | ⟨a, _ | ⟨b, _ | ⟨d, u⟩⟩⟩
        · exact absurd (List.cons.inj eq).1 outside.2.2.2
        · exact absurd (List.cons.inj (List.cons.inj eq).2).1 outside.2.2.1
        · exact absurd (List.cons.inj (List.cons.inj (List.cons.inj eq).2).2).1 plain
        · have same := (List.cons.inj (List.cons.inj (List.cons.inj eq).2).2).1
          exact absurd (by simp [same]) absent

namespace Cursor

variable {o c d : Cursor} {m : Int}

theorem lexeme?_of_isWord {ch : Char} (first : c.ahead.head? = some ch)
    (word : isWord ch = true ∨ ch = '#') (noOpener : c.rawOpener? = none) :
    c.lexeme? = .ok none := by
  have other (ch' : Char) (h : isWord ch' = false) (h' : ch' ≠ '#') : c.ahead.head? ≠ some ch' := by
    rw [first]
    intro same
    cases same
    rcases word with word | word
    · rw [h] at word
      cases word
    · exact h' word
  rw [lexeme?_none_iff]
  refine ⟨comment?_eq_none_of_ne (other '/' rfl (by decide)), literal?_eq_none noOpener ?_ ?_⟩
  · intro rest eq
    exact other '"' rfl (by decide) (by rw [eq, List.head?_cons])
  · intro rest eq
    exact other '\'' rfl (by decide) (by rw [eq, List.head?_cons])

/-- Characters none of which starts a lexeme are read one by one. -/
theorem reads_plain {u rest : Text} : ∀ {c : Cursor}, c.ahead = u ++ rest →
    (∀ k < u.length, (c.advance k).lexeme? = .ok none) →
      ∃ code, Reads c code (c.advance u.length) ∧ chars code = u := by
  induction u with
  | nil =>
      intro c _ _
      exact ⟨[], by rw [List.length_nil, advance_zero]; exact .here c, rfl⟩
  | cons ch u ih =>
      intro c eq plain
      have next : (c.advance 1).ahead = u ++ rest := by rw [advance_ahead, eq]; rfl
      obtain ⟨code, reads, rfl⟩ := ih next fun k lt => by
        rw [advance_advance, Nat.add_comm]
        exact plain (k + 1) (by rw [List.length_cons]; omega)
      have here := plain 0 (by rw [List.length_cons]; omega)
      rw [advance_zero] at here
      refine ⟨(c, ch) :: code, .char here (by rw [eq]; rfl) ?_, rfl⟩
      rwa [advance_advance, Nat.add_comm] at reads

/-- No raw string opens at any character of a word. -/
def PlainWord (c : Cursor) (w : Text) : Prop :=
  ∀ k < w.length, (c.advance k).rawOpener? = none

instance decidablePlainWord (c : Cursor) (w : Text) : Decidable (c.PlainWord w) :=
  inferInstanceAs (Decidable (∀ k < w.length, _))

theorem reads_word {w rest : Text} (eq : c.ahead = w ++ rest)
    (word : ∀ ch ∈ w, isWord ch = true ∨ ch = '#') (plain : c.PlainWord w) :
    ∃ code, Reads c code (c.advance w.length) ∧ chars code = w := by
  refine reads_plain eq fun k lt => ?_
  have first : (c.advance k).ahead.head? = some w[k] := by
    rw [advance_ahead, eq, List.head?_drop, List.getElem?_append_left lt, List.getElem?_eq_getElem]
  exact lexeme?_of_isWord first (word _ (List.getElem_mem lt)) (plain k lt)

theorem Level.word {w rest : Text} (h : Level o c m) (eq : c.ahead = w ++ rest)
    (word : ∀ ch ∈ w, isWord ch = true ∨ ch = '#') (plain : c.PlainWord w) :
    Level o (c.advance w.length) m := by
  obtain ⟨code, reads, chars⟩ := reads_word eq word plain
  have next := h.reads reads
  rwa [chars, level_of_isWord word, Int.add_zero] at next

/-- Inside a word no raw string opens. -/
theorem rawOpener?_of_before {ch : Char} (before : c.before = some ch) (word : isWord ch = true) :
    c.rawOpener? = none := by
  rw [rawOpener?, atWordStart, before]
  simp [word]

/-- A word that opens no raw string at its start opens none. -/
theorem plainWord_of_first {w rest : Text} (eq : c.ahead = w ++ rest)
    (word : ∀ ch ∈ w, isWord ch = true) (first : c.rawOpener? = none) : c.PlainWord w := by
  intro k lt
  cases k with
  | zero => rwa [advance_zero]
  | succ k =>
      have before : (c.advance (k + 1)).before = some w[k] := by
        rw [advance, if_neg (Nat.succ_ne_zero k), Nat.add_sub_cancel, eq,
          List.getElem?_append_left (by omega), List.getElem?_eq_getElem]
      exact rawOpener?_of_before before (word _ (List.getElem_mem _))

/-- A keyword opens no raw string. -/
theorem plainWord_of_isKeyword {w rest : Text} (eq : c.ahead = w ++ rest)
    (keyword : w.isKeyword = true) : c.PlainWord w := by
  rw [Text.isKeyword, Bool.and_eq_true, Bool.and_eq_true, bne_iff_ne, bne_iff_ne,
    List.all_eq_true] at keyword
  obtain ⟨⟨word, r⟩, b⟩ := keyword
  cases w with
  | nil =>
      intro k lt
      cases lt
  | cons ch w =>
      refine plainWord_of_first eq word ?_
      rw [rawOpener?]
      split
      · refine rawOpener?_eq_none_of_ne ?_ ?_ <;> rw [eq]
        · exact r
        · exact b
      · rfl

/-- An identifier in front of a character that is no part of an opener holds no raw string. -/
theorem plainWord_of_stop {w rest : Text} {stop : Char} (h : IsIdentifier w)
    (eq : c.ahead = w ++ stop :: rest)
    (outside : stop ≠ '#' ∧ stop ≠ '"' ∧ stop ≠ 'r' ∧ stop ≠ 'b') : c.PlainWord w := by
  have name {n : Text} (hn : IsName n) : ∀ ch ∈ n, ch ≠ '#' ∧ ch ≠ '"' := by
    intro ch mem
    have word := hn.isWord ch mem
    constructor <;> rintro rfl <;> cases word
  have opener (x : Cursor) {n : Text} (hn : IsName n) (eq : x.ahead = n ++ stop :: rest) :
      x.rawOpener? = none := by
    rw [rawOpener?]
    split
    · rw [eq, rawOpener?_eq_none_of_stop (name hn) outside]
    · rfl
  rcases h with hn | ⟨n, hn, rfl⟩
  · exact plainWord_of_first eq hn.isWord (opener c hn eq)
  · intro k lt
    rcases k with _ | _ | k
    · obtain ⟨a, v, rfl, start, _⟩ := hn
      have plain := name ⟨a, v, rfl, start, by assumption⟩ a List.mem_cons_self
      rw [advance_zero, rawOpener?]
      split
      · rw [eq]
        show rawOpener?.afterLetters 1 _ = none
        rw [rawOpener?.afterLetters]
        simp [plain.1, plain.2]
      · rfl
    · rw [rawOpener?]
      split
      · refine rawOpener?_eq_none_of_ne ?_ ?_ <;> rw [advance_ahead, eq] <;> simp
      · rfl
    · have eq' : (c.advance 2).ahead = n ++ stop :: rest := by rw [advance_ahead, eq]; rfl
      have rest := plainWord_of_first eq' hn.isWord (opener _ hn eq') k
        (by simpa using lt)
      rwa [advance_advance, Nat.add_comm] at rest

/-! ## §3. Identifiers at a cursor. -/

/-- The identifier `w` stands at `c`, and `after` is the place after it. -/
theorem identifier?_eq_some {w : Text} {after : Cursor} (h : c.identifier? = some (w, after)) :
    Text.identifier? c.ahead = some w ∧ after = c.advance w.length := by
  rw [identifier?] at h
  obtain ⟨w', hw, eq⟩ := Option.map_eq_some_iff.mp h
  cases eq
  exact ⟨hw, rfl⟩

theorem leadsTo_identifier {w : Text} {after : Cursor} (h : c.identifier? = some (w, after)) :
    c.LeadsTo after ∧ c.offset < after.offset := by
  obtain ⟨hw, rfl⟩ := identifier?_eq_some h
  obtain ⟨rest, eq, isIdentifier, _⟩ := Text.identifier?_some hw
  have pos := List.length_pos_of_ne_nil isIdentifier.ne_nil
  exact ⟨leadsTo_advance (by rw [eq, List.length_append]; omega), by rw [advance_offset]; omega⟩

/-- The first character of an identifier. -/
theorem isWord_of_identifier? {w : Text} {after : Cursor} (h : c.identifier? = some (w, after)) :
    ∃ ch, c.ahead.head? = some ch ∧ isWord ch = true := by
  obtain ⟨hw, _⟩ := identifier?_eq_some h
  obtain ⟨rest, eq, isIdentifier, _⟩ := Text.identifier?_some hw
  rcases isIdentifier with ⟨a, v, rfl, start, _⟩ | ⟨n, _, rfl⟩
  · exact ⟨a, by rw [eq]; rfl, isWord_of_isNameStart start⟩
  · exact ⟨'r', by rw [eq]; rfl, rfl⟩

/-- An identifier opens no raw string, if nothing follows it that belongs to one. -/
theorem plainWord_of_behind {w rest : Text} {after : Cursor} {stop : Char}
    (h : c.identifier? = some (w, after)) (behind : after.ahead = stop :: rest)
    (outside : stop ≠ '#' ∧ stop ≠ '"' ∧ stop ≠ 'r' ∧ stop ≠ 'b') : c.PlainWord w := by
  obtain ⟨hw, rfl⟩ := identifier?_eq_some h
  obtain ⟨tail, eq, isIdentifier, _⟩ := Text.identifier?_some hw
  rw [advance_ahead, eq, List.drop_left] at behind
  exact plainWord_of_stop isIdentifier (by rw [eq, behind]) outside

/-- **An identifier without a raw string leaves the level as it is.** -/
theorem Level.identifier {w : Text} {after : Cursor} (level : Level o c m)
    (h : c.identifier? = some (w, after)) (plain : c.PlainWord w) : Level o after m := by
  obtain ⟨hw, rfl⟩ := identifier?_eq_some h
  obtain ⟨rest, eq, isIdentifier, _⟩ := Text.identifier?_some hw
  exact level.word eq isIdentifier.isWord plain

/-! ## §4. Visibilities. -/

/-- The characters that may stand in a scope. -/
def inScope (ch : Char) : Bool :=
  isWord ch || ch == ':' || isBlank ch

theorem inScope_of_isBlank {ch : Char} (h : isBlank ch = true) : inScope ch = true := by
  rw [inScope, h, Bool.or_true]

/-- What the parentheses of a scope hold, apart from blanks at both ends: a word, or `in` and a path. -/
inductive IsScopeBody : Text → Prop where
  | word {w : Text} (mem : w ∈ (["crate", "self", "super"] : List Text)) : IsScopeBody w
  | path {p : Text} (inside : ∀ ch ∈ p, inScope ch = true) (blank : p.head?.any isBlank = true)
      (size : 2 ≤ p.length) : IsScopeBody ("in" ++ p)

theorem IsScopeBody.inScope {u : Text} (h : IsScopeBody u) : ∀ ch ∈ u, inScope ch = true := by
  cases h with
  | word mem =>
      simp only [List.mem_cons, List.not_mem_nil, or_false] at mem
      rcases mem with rfl | rfl | rfl <;> exact List.all_eq_true.mp (by decide)
  | path inside =>
      intro ch mem
      rcases List.mem_append.mp mem with mem | mem
      · exact List.all_eq_true.mp (show (("in" : Text).all Cursor.inScope) = true by decide) ch mem
      · exact inside ch mem

theorem scopeBody?_some {t : Text} {n : Nat} (h : scopeLength?.scopeBody? t = some n) :
    ∃ u rest, t = u ++ rest ∧ u.length = n ∧ IsScopeBody u := by
  rw [scopeLength?.scopeBody?] at h
  split at h
  next word found =>
    cases h
    have starts : Text.startsWith t word = true := List.find?_some found
    obtain ⟨rest, eq⟩ := List.isPrefixOf_iff_prefix.mp starts
    exact ⟨word, rest, eq.symm, rfl, .word (List.mem_of_find?_eq_some found)⟩
  next =>
    simp only at h
    split at h
    next starts =>
      cases h
      rw [Bool.and_eq_true, Bool.and_eq_true] at starts
      obtain ⟨rest, eq⟩ := List.isPrefixOf_iff_prefix.mp starts.1.1
      refine ⟨"in" ++ (t.drop 2).takeWhile inScope, (t.drop 2).dropWhile inScope, ?_, rfl,
        .path (List.all_eq_true.mp List.all_takeWhile) starts.1.2 (of_decide_eq_true starts.2)⟩
      rw [List.append_assoc, List.takeWhile_append_dropWhile, ← eq]
      rfl
    next => cases h

/-- The blanks at the start of a text, and the rest of it. -/
theorem exists_blanks_append (t : Text) :
    ∃ u rest, t = u ++ rest ∧ u.length = Text.blanks t ∧ ∀ ch ∈ u, isBlank ch = true :=
  ⟨t.takeWhile isBlank, t.dropWhile isBlank, List.takeWhile_append_dropWhile.symm, rfl,
    List.all_eq_true.mp List.all_takeWhile⟩

/-- The parts of a scope. -/
theorem scopeLength?_parts {t : Text} {n : Nat} (h : scopeLength? t = some n) :
    ∃ b body b' rest, t = '(' :: (b ++ body ++ b') ++ ')' :: rest ∧ n = (b ++ body ++ b').length + 2
      ∧ (∀ ch ∈ b, isBlank ch = true) ∧ IsScopeBody body ∧ ∀ ch ∈ b', isBlank ch = true := by
  rw [scopeLength?.eq_def] at h
  split at h
  next t =>
    obtain ⟨before, t, rfl, hbefore, blanks⟩ := exists_blanks_append t
    simp only [← hbefore, List.drop_left] at h
    obtain ⟨k, hk, h⟩ := Option.bind_eq_some_iff.mp h
    obtain ⟨body, t, rfl, rfl, isBody⟩ := scopeBody?_some hk
    obtain ⟨after, t, rfl, hafter, blanks'⟩ := exists_blanks_append t
    have skip : (before ++ (body ++ (after ++ t))).drop (before.length + body.length)
        = after ++ t := by
      rw [← List.append_assoc, ← List.length_append, List.drop_left]
    have skip' : (before ++ (body ++ (after ++ t))).drop
        (before.length + body.length + after.length) = t := by
      rw [← List.append_assoc, ← List.append_assoc, ← List.length_append, ← List.length_append,
        List.drop_left]
    simp only [skip, ← hafter, skip'] at h
    split at h
    next close =>
      cases h
      obtain ⟨rest, rfl⟩ := List.head?_eq_some_iff.mp close
      exact ⟨before, body, after, rest, by simp, by simp [Nat.add_assoc], blanks, isBody, blanks'⟩
    next => cases h
  next => cases h

/-- A scope is a pair of parentheses around words, colons and blanks. -/
theorem scopeLength?_some {t : Text} {n : Nat} (h : scopeLength? t = some n) :
    ∃ inner rest, t = '(' :: inner ++ ')' :: rest ∧ n = inner.length + 2
      ∧ ∀ ch ∈ inner, inScope ch = true := by
  obtain ⟨b, body, b', rest, eq, size, blanks, isBody, blanks'⟩ := scopeLength?_parts h
  refine ⟨_, rest, eq, size, fun ch mem => ?_⟩
  simp only [List.mem_append] at mem
  rcases mem with (mem | mem) | mem
  · exact inScope_of_isBlank (blanks ch mem)
  · exact isBody.inScope ch mem
  · exact inScope_of_isBlank (blanks' ch mem)

/-- The characters of a scope or path start no lexeme, unless a raw string opens behind them. -/
theorem lexeme?_of_inScope {c : Cursor} {u rest : Text} {stop : Char}
    (eq : c.ahead = u ++ stop :: rest) (more : u ≠ []) (inside : ∀ ch ∈ u, inScope ch = true)
    (outside : stop ≠ '#' ∧ stop ≠ '"' ∧ stop ≠ 'r' ∧ stop ≠ 'b') : c.lexeme? = .ok none := by
  have other (ch : Char) (h : inScope ch = false) : ch ∉ u := by
    intro mem
    rw [inside ch mem] at h
    cases h
  have first (ch : Char) (h : inScope ch = false) : c.ahead.head? ≠ some ch := by
    intro same
    obtain ⟨a, u, rfl⟩ := List.exists_cons_of_ne_nil more
    rw [eq] at same
    cases same
    exact other _ h List.mem_cons_self
  have noOpener : c.rawOpener? = none := by
    rw [rawOpener?]
    split
    · rw [eq]
      refine rawOpener?_eq_none_of_stop (fun ch mem => ?_) outside
      constructor <;> rintro rfl
      · exact other '#' rfl mem
      · exact other '"' rfl mem
    · rfl
  rw [lexeme?_none_iff]
  refine ⟨comment?_eq_none_of_ne (first '/' rfl), literal?_eq_none noOpener ?_ ?_⟩
  · intro rest eq
    exact first '"' rfl (by rw [eq, List.head?_cons])
  · intro rest eq
    exact first '\'' rfl (by rw [eq, List.head?_cons])

/-- A scope or path is read character by character. -/
theorem reads_inScope {u rest : Text} {stop : Char} (eq : c.ahead = u ++ stop :: rest)
    (inside : ∀ ch ∈ u, inScope ch = true)
    (outside : stop ≠ '#' ∧ stop ≠ '"' ∧ stop ≠ 'r' ∧ stop ≠ 'b') :
    ∃ code, Reads c code (c.advance u.length) ∧ chars code = u := by
  refine reads_plain eq fun k lt => ?_
  have ahead : (c.advance k).ahead = u.drop k ++ stop :: rest := by
    rw [advance_ahead, eq]
    exact List.drop_append_of_le_length (Nat.le_of_lt lt)
  refine lexeme?_of_inScope ahead ?_ (fun ch mem => inside ch (List.mem_of_mem_drop mem)) outside
  intro none
  rw [List.drop_eq_nil_iff] at none
  omega

theorem bracketWeight_of_inScope {ch : Char} (h : inScope ch = true) : bracketWeight ch = 0 := by
  rw [inScope, Bool.or_eq_true, Bool.or_eq_true, beq_iff_eq] at h
  rcases h with (word | rfl) | blank
  · exact bracketWeight_of_isWord (.inl word)
  · rfl
  · exact bracketWeight_of_blank blank

/-- A scope is a bracket around characters of a scope. -/
theorem exists_encloses_scope {c : Cursor} {n : Nat} (h : scopeLength? c.ahead = some n) :
    ∃ close code, Encloses c code close ∧ close.advance 1 = c.advance n
      ∧ ∀ ch ∈ chars code, inScope ch = true := by
  obtain ⟨inner, rest, eq, rfl, inside⟩ := scopeLength?_some h
  have next : (c.advance 1).ahead = inner ++ ')' :: rest := by
    rw [advance_ahead, eq]
    rfl
  obtain ⟨code, reads, hchars⟩ := reads_inScope next inside (by decide)
  refine ⟨(c.advance 1).advance inner.length, code, ⟨reads, ?_, '(', ')', by rw [eq]; rfl, rfl, ?_⟩,
    ?_, ?_⟩
  · rw [hchars]
    exact nest_of_plain [] fun ch mem => bracketWeight_of_inScope (inside ch mem)
  · rw [advance_ahead, next, List.drop_left, List.head?_cons]
  · rw [advance_advance, advance_advance]
    congr 1
    omega
  · rw [hchars]
    exact inside

/-- What the reader of a visibility finds: none, `pub` alone, or `pub` and a scope. -/
inductive Visibility (c : Cursor) : Text → Cursor → Prop where
  | none (h : ∀ after, c.identifier? ≠ some (("pub" : Text), after)) : Visibility c [] c
  | bare {after scope : Cursor} (h : c.identifier? = some (("pub" : Text), after))
      (toScope : Trivia false after scope) (noScope : scopeLength? scope.ahead = .none) :
      Visibility c "pub" after
  | within {after scope : Cursor} {n : Nat} (h : c.identifier? = some (("pub" : Text), after))
      (toScope : Trivia false after scope) (found : scopeLength? scope.ahead = some n) :
      Visibility c ("pub" ++ Text.collapse (scope.ahead.take n)) (scope.advance n)

theorem readVisibility_ok_iff {v : Text} :
    c.readVisibility = .ok (v, d) ↔ Visibility c v d := by
  constructor
  · intro h
    rw [readVisibility] at h
    split at h
    next noWord =>
      cases h
      exact .none fun after => by rw [noWord]; nofun
    next word after found =>
      split at h
      next other =>
        cases h
        exact .none fun after' eq => other (by rw [found] at eq; cases eq; rfl)
      next same =>
        obtain ⟨scope, toScope, h⟩ := bind_ok_iff.mp h
        rw [skipTrivia_ok_iff] at toScope
        rw [Decidable.not_not.mp same] at found
        split at h
        next n hn =>
          cases h
          exact .within found toScope hn
        next hn =>
          cases h
          exact .bare found toScope hn
  · intro h
    rw [readVisibility]
    cases h with
    | none other =>
        split
        next => rfl
        next word after found =>
          rw [if_pos (by rintro rfl; exact other after found)]
          rfl
    | bare found toScope noScope =>
        rw [found]
        simp only [ne_eq, not_true_eq_false, if_false]
        exact bind_ok_iff.mpr ⟨_, skipTrivia_ok_iff.mpr toScope, by rw [noScope]; rfl⟩
    | within found toScope hn =>
        rw [found]
        simp only [ne_eq, not_true_eq_false, if_false]
        exact bind_ok_iff.mpr ⟨_, skipTrivia_ok_iff.mpr toScope, by rw [hn]; rfl⟩

theorem Visibility.leadsTo {v : Text} (h : Visibility c v d) : c.LeadsTo d := by
  cases h with
  | none _ => exact .refl c
  | bare h _ _ => exact (leadsTo_identifier h).1
  | within h toScope found =>
      obtain ⟨close, code, encloses, next, _⟩ := exists_encloses_scope found
      rw [← next]
      exact ((leadsTo_identifier h).1.trans toScope.leadsTo).trans encloses.leadsTo

/-- The keyword of a visibility is code. -/
theorem reads_pub {after : Cursor} (h : c.identifier? = some (("pub" : Text), after)) :
    ∃ code, Reads c code after ∧ chars code = ['p', 'u', 'b'] := by
  obtain ⟨hw, rfl⟩ := identifier?_eq_some h
  obtain ⟨rest, eq, isIdentifier, _⟩ := Text.identifier?_some hw
  exact reads_word eq isIdentifier.isWord (plainWord_of_isKeyword eq (by decide))

/-- **A visibility leaves the level as it is**, and no attribute begins in it. -/
theorem Visibility.spec {v : Text} (h : Visibility c v d) (level : Level o c m) :
    Level o d m ∧ AllCode (· ≠ '#') o c.offset d.offset := by
  have pub {after : Cursor} (h : c.identifier? = some (("pub" : Text), after)) :
      Level o after m ∧ AllCode (· ≠ '#') o c.offset after.offset := by
    obtain ⟨code, reads, chars⟩ := reads_pub h
    have next := level.reads reads
    rw [chars] at next
    refine ⟨?_, level.allCode reads ?_⟩
    · rwa [show EnumExtract.level ['p', 'u', 'b'] = 0 from by decide, Int.add_zero] at next
    · rw [chars]
      exact Text.ne_hash_of_isKeyword (by decide)
  cases h with
  | none _ => exact ⟨level, .refl _ o c.offset⟩
  | bare h _ _ => exact pub h
  | @within after scope n h toScope found =>
      obtain ⟨hafter, first⟩ := pub h
      obtain ⟨hscope, blank⟩ := toScope.spec hafter.near
      obtain ⟨close, code, encloses, next, inside⟩ := exists_encloses_scope found
      rw [← next]
      refine ⟨encloses.level_after hscope, (first.trans (blank.imp ?_)).trans ?_⟩
      · rintro ch blank rfl
        cases blank
      · -- the parentheses and what is between them
        obtain ⟨opener, closer, opens, hcloser, closes⟩ := encloses.closes
        have open' := hscope.bracket opens (.inl (by rw [hcloser]; rfl))
        have close' := (encloses.level_closer hscope).bracket closes
          (.inr (isCloser_of_closer? hcloser).1)
        refine ((hscope.allCode open'.reads ?_).trans (open'.next.allCode encloses.reads ?_)).trans
          (close'.level.allCode close'.reads ?_)
        · intro ch mem
          rw [chars_cons, chars_nil, List.mem_singleton] at mem
          subst mem
          rintro rfl
          cases hcloser
        · rintro ch mem rfl
          have := inside _ mem
          cases this
        · intro ch mem
          rw [chars_cons, chars_nil, List.mem_singleton] at mem
          subst mem
          rintro rfl
          have := (isCloser_of_closer? hcloser).1
          cases this

end Cursor

end EnumExtract
