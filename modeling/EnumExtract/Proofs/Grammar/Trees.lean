/-
  EnumExtract.Proofs.Grammar.Trees
  ────────────────────────────────
  Token trees: what may stand between the brackets of an attribute.

  A tree is a mark, a word, a literal, a doc comment or a bracket around trees;
  blanks are marks.  A literal has one of the forms that the library reads as a
  lexeme, and nothing that follows a tree makes another lexeme of it.

  Main results:
    • `lexeme?_doc`     a doc comment is passed over as a whole,
    • `IsTrees.reads`   trees in front of a closing bracket are read to their
                        end, and their brackets balance.
-/
import EnumExtract.Proofs.Appending
import EnumExtract.Proofs.Names

namespace EnumExtract

open Cursor

/-! ## §1. Literals and doc comments. -/

/-- What may stand between the quotes of a string. -/
inductive IsStringBody : Text → Prop where
  | nil : IsStringBody []
  | escape {c : Char} {w : Text} (rest : IsStringBody w) : IsStringBody ('\\' :: c :: w)
  | plain {c : Char} {w : Text} (quote : c ≠ '"') (backslash : c ≠ '\\') (rest : IsStringBody w) :
      IsStringBody (c :: w)

/-- The end of a raw string. -/
def rawCloser (hashes : Nat) : Text :=
  '"' :: List.replicate hashes '#'

theorem IsStringBody.length {body : Text} (h : IsStringBody body) (w : Text) :
    stringLength? (body ++ '"' :: w) = some (body.length + 1) := by
  induction h with
  | nil => rfl
  | @escape c body rest ih =>
      show (stringLength? (body ++ '"' :: w)).map (· + 2) = _
      rw [ih]
      rfl
  | @plain c body quote backslash rest ih =>
      rw [List.cons_append, stringLength?.eq_def]
      split
      next eq => exact absurd (List.cons.inj eq).1 backslash
      next eq => exact absurd (List.cons.inj eq).1 quote
      next eq =>
        rw [← (List.cons.inj eq).2, ih]
        rfl
      next eq => cases eq

/-- A raw string ends at the first place where its end can stand. -/
theorem find?_rawCloser {hashes : Nat} {body : Text} (w : Text)
    (open' : ¬ rawCloser hashes <:+: body) :
    Text.find? (rawCloser hashes) (body ++ (rawCloser hashes ++ w)) = some body.length := by
  induction body with
  | nil =>
      have starts : Text.startsWith (rawCloser hashes ++ w) (rawCloser hashes) = true :=
        List.isPrefixOf_iff_prefix.mpr (List.prefix_append _ _)
      show (if Text.startsWith (rawCloser hashes ++ w) (rawCloser hashes) then some 0 else _) = some 0
      rw [if_pos starts]
  | cons ch body ih =>
      have later : ¬ rawCloser hashes <:+: body := fun inside => open' (inside.trans (List.suffix_cons ch body).isInfix)
      have here : Text.startsWith (ch :: (body ++ (rawCloser hashes ++ w))) (rawCloser hashes) = false := by
        by_contra starts
        rw [Bool.not_eq_false] at starts
        obtain ⟨same, rest⟩ := List.cons_prefix_cons.mp (List.isPrefixOf_iff_prefix.mp starts)
        -- the hashes end before the quotation mark behind the body
        have within : Text.startsWith (body ++ '"' :: (List.replicate hashes '#' ++ w))
            (List.replicate hashes '#') = true := List.isPrefixOf_iff_prefix.mpr rest
        rw [startsWith_stop body _ (by simp)] at within
        refine open' (List.IsPrefix.isInfix ?_)
        rw [← same]
        exact List.cons_prefix_cons.mpr ⟨rfl, List.isPrefixOf_iff_prefix.mp within⟩
      rw [List.cons_append, Text.find?, if_neg (by rw [here]; decide), ih later]
      rfl

/-- A raw string ends in a quotation mark or a hash. -/
theorem exists_last_rawCloser (hashes : Nat) : ∃ u ch, rawCloser hashes = u ++ [ch] ∧ isWord ch = false := by
  cases hashes with
  | zero => exact ⟨[], '"', rfl, rfl⟩
  | succ n => exact ⟨rawCloser n, '#', by simp [rawCloser, List.replicate_succ'], rfl⟩

theorem CharacterTail.exists_last {u : Text} (h : CharacterTail u) : ∃ v, u = v ++ ['\''] := by
  cases h with
  | hex => exact ⟨['\\', 'x', _, _], rfl⟩
  | @unicode digits => exact ⟨'\\' :: 'u' :: '\x7b' :: digits ++ ['\x7d'], by simp⟩
  | escape => exact ⟨['\\', _], rfl⟩
  | plain => exact ⟨[_], rfl⟩

/-- A line comment that is a doc comment. -/
structure DocComment where
  /-- What stands behind the three slashes on the line. -/
  body : Text
  line : '\n' ∉ body
  doc : body.head? ≠ some '/'

namespace DocComment

/-- The comment as it is written, with the line feed that ends it. -/
def text (d : DocComment) : Text :=
  "///" ++ d.body ++ "\n"

/-- The comment without the blanks at its end. -/
def shown (d : DocComment) : Text :=
  Text.trimEnd ("///" ++ d.body)

end DocComment

/-! ## §2. Trees. -/

/-- A character that is a token of its own, or a blank. -/
def isTreeMark (ch : Char) : Bool :=
  !(isWord ch || bracketWeight ch != 0 || ch == '/' || ch == '"' || ch == '\'')

/-- Nothing stands at the start that could belong to a word or lifetime in front of it. -/
def Text.Sealed (w : Text) : Prop :=
  ∀ ch, w.head? = some ch → isWord ch = false ∧ ch ≠ '#' ∧ ch ≠ '"' ∧ ch ≠ '\''

theorem Text.Sealed.of_first {ch : Char} (w : Text) (h : isWord ch = false ∧ ch ≠ '#' ∧ ch ≠ '"' ∧ ch ≠ '\'') :
    Text.Sealed (ch :: w) := by
  rintro _ ⟨⟩
  exact h

/-- Token trees, tree after tree. -/
inductive IsTrees : Text → Prop where
  | nil : IsTrees []
  | mark {ch : Char} {w : Text} (plain : isTreeMark ch = true) (rest : IsTrees w) : IsTrees (ch :: w)
  /-- A slash that starts no comment. -/
  | slash {w : Text} (line : w.head? ≠ some '/') (block : w.head? ≠ some '*') (rest : IsTrees w) :
      IsTrees ('/' :: w)
  /-- A word, which may be the prefix of a string, but not of a raw string. -/
  | word {u w : Text} (more : u ≠ []) (word : ∀ ch ∈ u, isWord ch = true)
      (stop : ∀ ch, w.head? = some ch → isWord ch = false)
      (noRaw : u ∈ rawLetters → ∀ hashes v, w ≠ List.replicate hashes '#' ++ '"' :: v)
      (rest : IsTrees w) : IsTrees (u ++ w)
  | string {body w : Text} (h : IsStringBody body) (rest : IsTrees w) :
      IsTrees ('"' :: body ++ '"' :: w)
  | rawString {letters body w : Text} {hashes : Nat} (h : letters ∈ rawLetters)
      (open' : ¬ rawCloser hashes <:+: body) (rest : IsTrees w) :
      IsTrees (letters ++ List.replicate hashes '#' ++ '"' :: body ++ rawCloser hashes ++ w)
  | character {u w : Text} (h : CharacterTail u) (rest : IsTrees w) : IsTrees ('\'' :: u ++ w)
  | lifetime {name w : Text} (h : IsName name) (stop : w.Sealed) (rest : IsTrees w) :
      IsTrees ('\'' :: name ++ w)
  | doc {w : Text} (d : DocComment) (rest : IsTrees w) : IsTrees (d.text ++ w)
  /-- A bracket around trees. -/
  | group {opener closer : Char} {u w : Text} (h : closer? opener = some closer) (inner : IsTrees u)
      (rest : IsTrees w) : IsTrees (opener :: u ++ closer :: w)

theorem plain_of_isTreeMark {ch : Char} (h : isTreeMark ch = true) :
    isWord ch = false ∧ bracketWeight ch = 0 ∧ Cursor.mayStartLexeme ch = false := by
  rw [isTreeMark, Bool.not_eq_true', Bool.or_eq_false_iff, Bool.or_eq_false_iff,
    Bool.or_eq_false_iff, Bool.or_eq_false_iff, bne_eq_false_iff_eq] at h
  obtain ⟨⟨⟨⟨word, weight⟩, slash⟩, quote⟩, tick⟩ := h
  refine ⟨word, weight, ?_⟩
  have noR : (ch == 'r') = false := by
    rw [beq_eq_false_iff_ne]
    rintro rfl
    cases word
  have noB : (ch == 'b') = false := by
    rw [beq_eq_false_iff_ne]
    rintro rfl
    cases word
  rw [Cursor.mayStartLexeme, slash, quote, tick, noR, noB]
  rfl

/-- What holds of the first character of two texts holds of the first character of both. -/
theorem head?_append_cases {P : Char → Prop} {u v : Text} (hu : ∀ ch, u.head? = some ch → P ch)
    (hv : ∀ ch, v.head? = some ch → P ch) : ∀ ch, (u ++ v).head? = some ch → P ch := by
  cases u with
  | nil => exact hv
  | cons a u => exact hu

theorem head?_append_ne {u v : Text} {ch : Char} (hu : u.head? ≠ some ch) (hv : v.head? ≠ some ch) :
    (u ++ v).head? ≠ some ch := by
  cases u with
  | nil => exact hv
  | cons a u => exact hu

/-- A character that is no escape begins a character literal only if a tick follows. -/
theorem characterLength?_eq_none {ch : Char} {w : Text} (escape : ch ≠ '\\') (tick : w.head? ≠ some '\'') :
    characterLength? (ch :: w) = none := by
  cases found : characterLength? (ch :: w) with
  | none => rfl
  | some n =>
      obtain ⟨u, v, eq, tail, _⟩ := exists_of_characterLength? found
      cases tail with
      | hex | unicode | escape => exact absurd (List.cons.inj eq).1 escape
      | plain => exact absurd (by rw [(List.cons.inj eq).2]; rfl) tick

/-- No character literal begins with a name that no tick follows. -/
theorem characterLength?_name {name w : Text} (h : IsName name) (stop : w.Sealed) :
    characterLength? (name ++ w) = none := by
  obtain ⟨ch, name, rfl, start, word⟩ := h
  refine characterLength?_eq_none ?_ ?_
  · rintro rfl
    cases start
  · refine head?_append_ne (fun first => ?_) fun first => (stop '\'' first).2.2.2 rfl
    have tick := word '\'' (List.mem_of_head? first)
    cases tick

/-- The opener of a raw string in front of a maximal word is that word with hashes behind it. -/
theorem rawOpener?_word {u w : Text} (word : ∀ ch ∈ u, isWord ch = true)
    (stop : ∀ ch, w.head? = some ch → isWord ch = false)
    (noRaw : u ∈ rawLetters → ∀ hashes v, w ≠ List.replicate hashes '#' ++ '"' :: v) :
    rawOpener? (u ++ w) = none := by
  cases h : rawOpener? (u ++ w) with
  | none => rfl
  | some found =>
      exfalso
      obtain ⟨k, hashes⟩ := found
      obtain ⟨letters, mem, v, eq, _⟩ := exists_of_rawOpener? h
      rw [List.append_assoc] at eq
      have inside : ∀ ch ∈ letters, isWord ch = true := by
        simp only [rawLetters, List.mem_cons, List.not_mem_nil, or_false] at mem
        rcases mem with rfl | rfl <;> exact List.all_eq_true.mp (by decide)
      have outside : ∀ ch, (List.replicate hashes '#' ++ '"' :: v).head? = some ch → isWord ch = false := by
        intro ch first
        cases hashes with
        | zero =>
            cases first
            rfl
        | succ n =>
            cases first
            rfl
      have same : u = letters := by
        rw [← takeWhile_append_stop word stop, eq, takeWhile_append_stop inside outside]
      subst same
      exact noRaw mem hashes v (List.append_cancel_left eq)

theorem Text.Sealed.noRaw {w : Text} (h : w.Sealed) (hashes : Nat) (v : Text) :
    w ≠ List.replicate hashes '#' ++ '"' :: v := by
  rintro rfl
  cases hashes with
  | zero => exact (h '"' rfl).2.2.1 rfl
  | succ n => exact (h '#' rfl).2.1 rfl

namespace Cursor

variable {c : Cursor}

/-- No raw string opens at a word that nothing is glued to. -/
theorem rawOpener?_sealed {u w : Text} (eq : c.ahead = u ++ w) (word : ∀ ch ∈ u, isWord ch = true)
    (stop : w.Sealed) : c.rawOpener? = none := by
  rw [rawOpener?, eq, rawOpener?_word word (fun ch first => (stop ch first).1)
    fun _ => stop.noRaw, ite_self]

/-- Where a word begins at the cursor, no word goes on before it. -/
def Fresh (c : Cursor) : Prop :=
  ∀ ch, c.ahead.head? = some ch → isWord ch = true → c.atWordStart = true

theorem Fresh.of_stop (stop : ∀ ch, c.ahead.head? = some ch → isWord ch = false) : c.Fresh := by
  intro ch first word
  rw [stop ch first] at word
  cases word

/-- Behind a character that belongs to no word. -/
theorem Fresh.behind {u w : Text} {x : Char} (eq : c.ahead = u ++ x :: w)
    (plain : isWord x = false) : (c.advance (u.length + 1)).Fresh := by
  intro first _ _
  have before : (c.advance (u.length + 1)).before = some x := by
    rw [advance, if_neg (Nat.succ_ne_zero _), Nat.add_sub_cancel, eq,
      List.getElem?_append_right (Nat.le_refl _), Nat.sub_self, List.getElem?_cons_zero]
  rw [atWordStart, before]
  simp [plain]

/-- The letters of a raw string begin a word. -/
theorem Fresh.rawLetters {letters : Text} (h : c.Fresh) (mem : letters ∈ rawLetters)
    (start : letters <+: c.ahead) : c.atWordStart = true := by
  obtain ⟨w, eq⟩ := start
  simp only [EnumExtract.rawLetters, List.mem_cons, List.not_mem_nil, or_false] at mem
  rcases mem with rfl | rfl
  · exact h 'r' (by rw [← eq]; rfl) rfl
  · exact h 'b' (by rw [← eq]; rfl) rfl

/-- Only the letters of a raw string open one. -/
theorem rawOpener?_of_cons {ch : Char} {w : Text} (eq : c.ahead = ch :: w) (r : ch ≠ 'r') (b : ch ≠ 'b') :
    c.rawOpener? = none := by
  have other {x : Char} (ne : ch ≠ x) : c.ahead.head? ≠ some x := by
    rw [eq]
    exact fun same => ne (Option.some.inj same)
  rw [rawOpener?, rawOpener?_eq_none_of_ne (other r) (other b), ite_self]

theorem lexeme?_string {body w : Text} (h : IsStringBody body) (eq : c.ahead = '"' :: body ++ '"' :: w) :
    c.lexeme? = .ok (some (body.length + 2)) := by
  have noOpener := rawOpener?_of_cons eq (by decide) (by decide)
  refine lexeme?_some_iff.mpr (.inr ⟨comment?_eq_none_of_ne (by rw [eq]; simp), ?_⟩)
  rw [literal?.eq_def, noOpener, eq]
  simp only [List.cons_append, h.length w]

theorem lexeme?_rawString {letters body w : Text} {hashes : Nat} (h : letters ∈ rawLetters)
    (open' : ¬ rawCloser hashes <:+: body) (start : c.atWordStart = true)
    (eq : c.ahead = letters ++ List.replicate hashes '#' ++ '"' :: (body ++ (rawCloser hashes ++ w))) :
    c.lexeme? = .ok (some (letters.length + hashes + 1 + body.length + 1 + hashes)) := by
  have opener : c.rawOpener? = some (letters.length + hashes + 1, hashes) := by
    rw [rawOpener?, start, if_pos rfl, eq, rawOpener?_append h]
  have noSlash : c.ahead.head? ≠ some '/' := by
    rw [eq]
    simp only [rawLetters, List.mem_cons, List.not_mem_nil, or_false] at h
    rcases h with rfl | rfl <;> simp
  have behind : c.ahead.drop (letters.length + hashes + 1) = body ++ (rawCloser hashes ++ w) := by
    have cut : c.ahead = (letters ++ List.replicate hashes '#' ++ ['"'])
        ++ (body ++ (rawCloser hashes ++ w)) := by rw [eq]; simp
    have size : (letters ++ List.replicate hashes '#' ++ ['"']).length = letters.length + hashes + 1 := by
      rw [List.length_append, List.length_append, List.length_replicate, List.length_singleton]
    rw [cut, ← size, List.drop_left]
  refine lexeme?_some_iff.mpr (.inr ⟨comment?_eq_none_of_ne noSlash, ?_⟩)
  have found := find?_rawCloser w open'
  rw [rawCloser] at found
  rw [literal?.eq_def, opener]
  simp only [behind, rawCloser, found]

theorem lexeme?_character {u w : Text} (h : CharacterTail u) (eq : c.ahead = '\'' :: u ++ w) :
    c.lexeme? = .ok (some (u.length + 1)) := by
  have noOpener := rawOpener?_of_cons eq (by decide) (by decide)
  refine lexeme?_some_iff.mpr (.inr ⟨comment?_eq_none_of_ne (by rw [eq]; simp), ?_⟩)
  rw [literal?.eq_def, noOpener, eq]
  simp only [List.cons_append, characterLength?_append h]

/-- A tick that begins no character literal. -/
theorem lexeme?_loneTick {w : Text} (none : characterLength? w = .none) (eq : c.ahead = '\'' :: w) :
    c.lexeme? = .ok (some 1) := by
  have noOpener := rawOpener?_of_cons eq (by decide) (by decide)
  refine lexeme?_some_iff.mpr (.inr ⟨comment?_eq_none_of_ne (by rw [eq]; simp), ?_⟩)
  rw [literal?.eq_def, noOpener, eq]
  simp only [none]

/-- The tick of a lifetime. -/
theorem lexeme?_tick {name w : Text} (h : IsName name) (stop : w.Sealed) (eq : c.ahead = '\'' :: name ++ w) :
    c.lexeme? = .ok (some 1) :=
  lexeme?_loneTick (characterLength?_name h stop) eq

/-- A slash in front of no other slash and of no star begins nothing. -/
theorem lexeme?_slash {w : Text} (eq : c.ahead = '/' :: w) (line : w.head? ≠ some '/')
    (block : w.head? ≠ some '*') : c.lexeme? = .ok none := by
  have noComment {ch : Char} (other : w.head? ≠ some ch) (rest : Text) : c.ahead ≠ '/' :: ch :: rest := by
    intro same
    rw [eq] at same
    rw [(List.cons.inj same).2] at other
    exact other rfl
  have noOpener := rawOpener?_of_cons eq (by decide) (by decide)
  exact lexeme?_none_iff.mpr ⟨comment?_eq_none (noComment line) (noComment block),
    literal?_eq_none noOpener (by rw [eq]; simp) (by rw [eq]; simp)⟩

theorem lineLength_append {u : Text} (line : '\n' ∉ u) (w : Text) :
    lineLength (u ++ '\n' :: w) = u.length + 1 := by
  induction u with
  | nil => rfl
  | cons ch u ih =>
      have other : ch ≠ '\n' := fun same => line (by rw [same]; exact List.mem_cons_self)
      rw [List.cons_append, lineLength, if_neg other, ih fun mem => line (List.mem_cons_of_mem _ mem)]
      rfl

/-- **A doc comment is passed over as a whole.** -/
theorem lexeme?_doc {d : DocComment} {w : Text} (eq : c.ahead = d.text ++ w) :
    c.lexeme? = .ok (some d.text.length) := by
  have cut : c.ahead = ("///" ++ d.body : Text) ++ '\n' :: w := by
    rw [eq, DocComment.text]
    simp
  have line : '\n' ∉ ("///" ++ d.body : Text) := by
    intro mem
    rcases List.mem_append.mp mem with mem | mem
    · simp at mem
    · exact d.line mem
  have comment : c.comment? = .ok (some (lineLength c.ahead)) := by
    rw [comment?.eq_def, cut]
    rfl
  have length : d.text.length = ("///" ++ d.body : Text).length + 1 := List.length_append
  rw [cut, lineLength_append line, ← length] at comment
  exact lexeme?_some_iff.mpr (.inl comment)

end Cursor

/-! ## §3. Reading trees. -/

/-- What is not glued to a word makes no raw string of it. -/
theorem append_ne_raw {w tail : Text} (sealed : tail.Sealed) (hashes : Nat)
    (h : ∀ v, w ≠ List.replicate hashes '#' ++ '"' :: v) (v : Text) :
    w ++ tail ≠ List.replicate hashes '#' ++ '"' :: v := by
  induction hashes generalizing w with
  | zero =>
      intro eq
      cases w with
      | nil => exact (sealed '"' (by rw [← List.nil_append tail, eq]; rfl)).2.2.1 rfl
      | cons a w => exact h w (by rw [(List.cons.inj eq).1]; rfl)
  | succ n ih =>
      intro eq
      cases w with
      | nil => exact (sealed '#' (by rw [← List.nil_append tail, eq]; rfl)).2.1 rfl
      | cons a w =>
          have cut : a :: (w ++ tail) = '#' :: (List.replicate n '#' ++ '"' :: v) := eq
          obtain ⟨rfl, behind⟩ := List.cons.inj cut
          exact ih (fun v same => h v (by rw [same]; rfl)) behind

theorem not_isWord_of_isCloser {ch : Char} (h : isCloser ch = true) : isWord ch = false := by
  simp only [isCloser, Bool.or_eq_true, beq_iff_eq] at h
  rcases h with (rfl | rfl) | rfl <;> rfl

/-- The code `code` leaves every nest of brackets as it is. -/
def Balanced (code : List (Cursor × Char)) : Prop :=
  ∀ awaited, nest awaited (chars code) = some awaited

theorem Balanced.nil : Balanced [] :=
  fun _ => rfl

theorem Balanced.append {code more : List (Cursor × Char)} (h : Balanced code) (h' : Balanced more) :
    Balanced (code ++ more) := by
  intro awaited
  rw [chars_append, nest_append_eq, h awaited]
  exact h' awaited

theorem Balanced.of_plain {code : List (Cursor × Char)} (plain : ∀ ch ∈ chars code, bracketWeight ch = 0) :
    Balanced code :=
  fun awaited => nest_of_plain awaited plain

/-- A bracket around balanced code. -/
theorem Balanced.group {code : List (Cursor × Char)} {x y : Cursor} {opener closer : Char}
    (h : closer? opener = some closer) (inner : Balanced code) :
    Balanced ((x, opener) :: (code ++ [(y, closer)])) := by
  intro awaited
  have closes := (isCloser_of_closer? h).1
  have noOpener := closer?_of_isCloser closes
  have opened : nest awaited [opener] = some (closer :: awaited) := by simp [nest, h]
  have closed : nest (closer :: awaited) [closer] = some awaited := by simp [nest, noOpener, closes]
  rw [chars_cons, chars_append, nest_cons, opened, Option.bind_some, nest_append_eq, inner,
    Option.bind_some]
  exact closed

namespace Cursor

variable {c : Cursor}

/-- Reading on behind what has been read. -/
theorem Reads.onward {code more : List (Cursor × Char)} {u w : Text}
    (h : Reads c code (c.advance u.length))
    (h' : Reads (c.advance u.length) more ((c.advance u.length).advance w.length)) :
    Reads c (code ++ more) (c.advance (u ++ w).length) := by
  rw [advance_advance, ← List.length_append] at h'
  exact h.trans h'

theorem ahead_advance {u w : Text} (eq : c.ahead = u ++ w) : (c.advance u.length).ahead = w := by
  rw [advance_ahead, eq, List.drop_left]

end Cursor

/-- What may stand behind trees. -/
def Text.Closes (tail : Text) : Prop :=
  ∀ ch, tail.head? = some ch → isCloser ch = true

theorem Text.Closes.sealed {tail : Text} (h : tail.Closes) : tail.Sealed := by
  intro ch first
  have close := h ch first
  refine ⟨not_isWord_of_isCloser close, ?_, ?_, ?_⟩ <;> rintro rfl <;> cases close

/-- The text `w` is read to its end wherever a closing bracket or nothing stands behind it. -/
def ReadsBalanced (w : Text) : Prop :=
  ∀ {c : Cursor} {tail : Text}, c.ahead = w ++ tail → tail.Closes → c.Fresh →
    ∃ code, Reads c code (c.advance w.length) ∧ Balanced code

theorem not_isWord_of_closer? {opener closer : Char} (h : closer? opener = some closer) :
    isWord opener = false := by
  unfold closer? at h
  split at h <;> first | rfl | cases h

/-- A bracket around text that is read in balance. -/
theorem ReadsBalanced.encloses {c : Cursor} {opener closer : Char} {u tail : Text}
    (h : ReadsBalanced u) (pair : closer? opener = some closer)
    (eq : c.ahead = opener :: u ++ closer :: tail) :
    ∃ code, Encloses c code (c.advance (u.length + 1)) ∧ Balanced code
      ∧ (c.advance (u.length + 1)).ahead = closer :: tail := by
  have next : (c.advance 1).ahead = u ++ closer :: tail := by
    rw [advance_ahead, eq]
    rfl
  have closes : Text.Closes (closer :: tail) := fun ch first => by
    cases first
    exact (isCloser_of_closer? pair).1
  obtain ⟨code, reads, balanced⟩ := h next closes
    (.behind (u := []) eq (not_isWord_of_closer? pair))
  have close := ahead_advance next
  rw [advance_advance, Nat.add_comm] at reads close
  exact ⟨code, ⟨reads, balanced [], opener, closer, by rw [eq]; rfl, pair, by rw [close]; rfl⟩,
    balanced, close⟩

/-! ## §4. Reading tree after tree. -/

/-- The tree `u` ahead is read to its end, its brackets balance, and no word goes on behind it. -/
structure Cursor.ReadsTree (c : Cursor) (u : Text) : Prop where
  reads : ∃ code, Reads c code (c.advance u.length) ∧ Balanced code
  fresh : (c.advance u.length).Fresh

namespace Cursor.ReadsTree

variable {c : Cursor} {u w : Text} {ch : Char}

/-- A tree and the trees behind it. -/
theorem behind {tail : Text} (here : c.ReadsTree u) (h : ReadsBalanced w)
    (eq : c.ahead = u ++ w ++ tail) (closes : tail.Closes) :
    ∃ code, Reads c code (c.advance (u ++ w).length) ∧ Balanced code := by
  obtain ⟨code, reads, balanced⟩ := here.reads
  rw [List.append_assoc] at eq
  obtain ⟨more, reads', balanced'⟩ := h (ahead_advance eq) closes here.fresh
  exact ⟨_, reads.onward reads', balanced.append balanced'⟩

/-- A character on its own. -/
theorem char (eq : c.ahead = ch :: w) (none : c.lexeme? = .ok none) (weight : bracketWeight ch = 0)
    (plain : isWord ch = false) : c.ReadsTree [ch] :=
  ⟨⟨[(c, ch)], .char none (by rw [eq]; rfl) (.here _), .of_plain (by simpa using weight)⟩,
    .behind (u := []) eq plain⟩

/-- A lexeme that ends in no word. -/
theorem lexeme (eq : c.ahead = u ++ ch :: w) (h : c.lexeme? = .ok (some (u.length + 1)))
    (plain : isWord ch = false) : c.ReadsTree (u ++ [ch]) := by
  have size : (u ++ [ch]).length = u.length + 1 := List.length_append
  refine ⟨⟨[], ?_, .nil⟩, ?_⟩
  · rw [size]
    exact .lexeme h (.here _)
  · rw [size]
    exact .behind eq plain

/-- A slash in front of no other slash and of no star. -/
theorem slash (eq : c.ahead = '/' :: w) (line : w.head? ≠ some '/') (block : w.head? ≠ some '*') :
    c.ReadsTree ['/'] :=
  char eq (lexeme?_slash eq line block) rfl rfl

/-- A word that opens no raw string, up to its end. -/
theorem word (eq : c.ahead = u ++ w) (word : ∀ ch ∈ u, isWord ch = true)
    (stop : ∀ ch, w.head? = some ch → isWord ch = false)
    (noRaw : u ∈ rawLetters → ∀ hashes v, w ≠ List.replicate hashes '#' ++ '"' :: v) :
    c.ReadsTree u := by
  have noOpener : c.rawOpener? = none := by
    rw [Cursor.rawOpener?, eq, rawOpener?_word word stop noRaw, ite_self]
  obtain ⟨code, reads, hchars⟩ := reads_word eq (fun ch mem => .inl (word ch mem))
    (plainWord_of_first eq word noOpener)
  refine ⟨⟨code, reads, .of_plain fun ch mem => ?_⟩, .of_stop ?_⟩
  · rw [hchars] at mem
    exact bracketWeight_of_isWord (.inl (word ch mem))
  · rw [ahead_advance eq]
    exact stop

/-- A raw string at the start of a word. -/
theorem rawString {letters body : Text} {hashes : Nat} (h : letters ∈ rawLetters)
    (open' : ¬ rawCloser hashes <:+: body) (fresh : c.Fresh)
    (eq : c.ahead = letters ++ List.replicate hashes '#' ++ '"' :: body ++ rawCloser hashes ++ w) :
    c.ReadsTree (letters ++ List.replicate hashes '#' ++ '"' :: body ++ rawCloser hashes) := by
  have start : c.atWordStart = true := fresh.rawLetters h (by rw [eq]; simp)
  have whole := lexeme?_rawString (w := w) h open' start (by rw [eq]; simp)
  obtain ⟨u, ch, cut, plain⟩ := exists_last_rawCloser hashes
  have size := congrArg List.length cut
  rw [rawCloser, List.length_cons, List.length_replicate, List.length_append, List.length_singleton] at size
  rw [cut] at eq ⊢
  rw [← List.append_assoc]
  refine lexeme (w := w) (by rw [eq]; simp) ?_ plain
  rw [whole]
  simp only [List.length_append, List.length_replicate, List.length_cons]
  congr 2
  omega

/-- A character literal ends in a tick. -/
theorem character (eq : c.ahead = '\'' :: u ++ w) (h : CharacterTail u) : c.ReadsTree ('\'' :: u) := by
  have whole := lexeme?_character h eq
  obtain ⟨v, rfl⟩ := h.exists_last
  rw [List.length_append] at whole
  exact lexeme (u := '\'' :: v) (w := w) (by rw [eq]; simp) whole rfl

/-- A tick and the name of a lifetime. -/
theorem lifetime {name : Text} (eq : c.ahead = '\'' :: name ++ w) (h : IsName name) (stop : w.Sealed) :
    c.ReadsTree ('\'' :: name) := by
  have next : (c.advance 1).ahead = name ++ w := by
    rw [advance_ahead, eq]
    rfl
  obtain ⟨code, reads, hchars⟩ := reads_word next (fun ch mem => .inl (h.isWord ch mem))
    (plainWord_of_first next h.isWord (rawOpener?_sealed next h.isWord stop))
  rw [advance_advance, Nat.add_comm] at reads
  refine ⟨⟨code, .lexeme (lexeme?_tick h stop eq) ?_, .of_plain fun ch mem => ?_⟩, .of_stop ?_⟩
  · exact reads
  · rw [hchars] at mem
    exact bracketWeight_of_isWord (.inl (h.isWord ch mem))
  · rw [ahead_advance eq]
    exact fun ch first => (stop ch first).1

/-- A bracket around trees. -/
theorem group {opener closer : Char} (eq : c.ahead = opener :: u ++ closer :: w)
    (h : closer? opener = some closer) (inner : ReadsBalanced u) :
    c.ReadsTree (opener :: u ++ [closer]) := by
  obtain ⟨code, encloses, balanced, close⟩ := inner.encloses h eq
  have closes := (isCloser_of_closer? h).1
  have opens : c.ahead.head? = some opener := by
    rw [eq]
    rfl
  have last : (c.advance (u.length + 1)).ahead.head? = some closer := by
    rw [close]
    rfl
  have size : (opener :: u ++ [closer]).length = u.length + 1 + 1 := by simp
  have ends : Reads (c.advance (u.length + 1)) [(c.advance (u.length + 1), closer)]
      (c.advance (opener :: u ++ [closer]).length) := by
    have here := Reads.char (lexeme?_of_bracket last (.inr closes)) last
      (.here ((c.advance (u.length + 1)).advance 1))
    rwa [advance_advance, ← size] at here
  refine ⟨⟨(c, opener) :: (code ++ [(c.advance (u.length + 1), closer)]), ?_, .group h balanced⟩, ?_⟩
  · exact .char (lexeme?_of_bracket opens (.inl (by rw [h]; rfl))) opens (encloses.reads.trans ends)
  · rw [size]
    exact .behind (u := opener :: u) eq (not_isWord_of_isCloser closes)

end Cursor.ReadsTree

/-- **Trees in front of a closing bracket are read to their end, and their brackets balance.** -/
theorem IsTrees.reads {w : Text} (h : IsTrees w) : ReadsBalanced w := by
  induction h with
  | nil =>
      intro c tail _ _ _
      exact ⟨[], by rw [List.length_nil, advance_zero]; exact .here c, .nil⟩
  | @mark ch w plain rest ih =>
      intro c tail eq closes _
      obtain ⟨notWord, weight, noStart⟩ := plain_of_isTreeMark plain
      have none : c.lexeme? = .ok none := lexeme?_eq_none fun first h => by
        rw [eq] at h
        cases h
        exact noStart
      exact (ReadsTree.char eq none weight notWord).behind ih eq closes
  | @slash w line block rest ih =>
      intro c tail eq closes _
      have other {ch : Char} (notCloser : isCloser ch = false) (h : w.head? ≠ some ch) :
          (w ++ tail).head? ≠ some ch := by
        refine head?_append_ne h fun first => ?_
        rw [closes ch first] at notCloser
        cases notCloser
      exact (ReadsTree.slash eq (other rfl line) (other rfl block)).behind ih eq closes
  | @word u w more word stop noRaw rest ih =>
      intro c tail eq closes _
      have stop' := head?_append_cases stop fun ch first => (closes.sealed ch first).1
      have here : c.ReadsTree u := .word (by rw [eq, List.append_assoc]) word stop' fun mem hashes =>
        append_ne_raw closes.sealed hashes (noRaw mem hashes)
      exact here.behind ih eq closes
  | @string body w h rest ih =>
      intro c tail eq closes _
      have cut : '"' :: body ++ '"' :: w = ('"' :: body ++ ['"']) ++ w := by simp
      rw [cut] at eq ⊢
      have eq' : c.ahead = '"' :: body ++ '"' :: (w ++ tail) := by
        rw [eq]
        simp
      exact (ReadsTree.lexeme eq' (lexeme?_string h eq') rfl).behind ih eq closes
  | @rawString letters body w hashes h open' rest ih =>
      intro c tail eq closes fresh
      exact (ReadsTree.rawString (w := w ++ tail) h open' fresh (by rw [eq]; simp)).behind ih eq closes
  | @character u w h rest ih =>
      intro c tail eq closes _
      exact (ReadsTree.character (w := w ++ tail) (by rw [eq]; simp) h).behind ih eq closes
  | @lifetime name w h stop rest ih =>
      intro c tail eq closes _
      have stop' : (w ++ tail).Sealed := head?_append_cases stop closes.sealed
      exact (ReadsTree.lifetime (by rw [eq]; simp) h stop').behind ih eq closes
  | @doc w d rest ih =>
      intro c tail eq closes _
      have eq' : c.ahead = ("///" ++ d.body : Text) ++ '\n' :: (w ++ tail) := by
        rw [eq, DocComment.text]
        simp
      have whole := lexeme?_doc (d := d) (w := w ++ tail) (by rw [eq]; simp)
      rw [DocComment.text, List.length_append] at whole
      exact (ReadsTree.lexeme eq' whole rfl).behind ih eq closes
  | @group opener closer u w h inner rest ihInner ih =>
      intro c tail eq closes _
      have cut : opener :: u ++ closer :: w = (opener :: u ++ [closer]) ++ w := by simp
      rw [cut] at eq ⊢
      exact (ReadsTree.group (w := w ++ tail) (by rw [eq]; simp) h ihInner).behind ih eq closes

end EnumExtract
