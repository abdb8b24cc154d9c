/-
  EnumExtract.Proofs.Grammar.Scanning
  ────────────────────────────────
  What the scan for declarations passes without finding an item.

  A word that is no keyword is passed, as is a number, a lifetime or a literal.  A raw
  identifier such as `r#enum` is not passed as a whole: the scan sees the keyword in
  it, and goes on behind the keyword if no name follows.

  Main results:
    • `passes_words`, `Literal.passes`      words, numbers and literals are passed,
    • `KeywordAt.passes_declaration`, `KeywordAt.passes_visibility`
                                            so are keywords that declare nothing.
-/
import EnumExtract.Proofs.Grammar.Spelling
import EnumExtract.Proofs.Scan

namespace EnumExtract

open Cursor

/-! ## §1. Runs of the scan that find nothing. -/

namespace Cursor

/-- Where the text ends, the items found are put in order. -/
def scanEnd (s : Scan) (_ : Cursor) : Except Fault (List Item) :=
  .ok s.items.reverse

/-- The modules that are still open at offset `i`, the innermost first. -/
def openAt (modules : List OpenModule) (i : Nat) : List OpenModule :=
  modules.dropWhile (·.close < i)

theorem openAt_openAt {i j : Nat} (modules : List OpenModule) (le : i ≤ j) :
    openAt (openAt modules i) j = openAt modules j := by
  induction modules with
  | nil => rfl
  | cons m modules ih =>
      unfold openAt at ih ⊢
      rw [List.dropWhile_cons]
      split
      · next closed =>
        have closed' : decide (m.close < j) = true :=
          decide_eq_true (Nat.lt_of_lt_of_le (of_decide_eq_true closed) le)
        rw [ih, List.dropWhile_cons, if_pos closed']
      · rfl

/-- Modules that have been closed may be forgotten early. -/
theorem walk_openAt {i : Nat} {c : Cursor} (items : List Item) (modules : List OpenModule)
    (le : i ≤ c.offset) :
    walk scanStep scanEnd ⟨items, openAt modules i⟩ c = walk scanStep scanEnd ⟨items, modules⟩ c := by
  obtain ⟨before, offset, ahead⟩ := c
  cases ahead with
  | nil => rfl
  | cons ch rest =>
      have same : scanStep ⟨items, openAt modules i⟩ ⟨before, offset, ch :: rest⟩
          = scanStep ⟨items, modules⟩ ⟨before, offset, ch :: rest⟩ := by
        unfold scanStep
        dsimp only
        rw [← openAt, ← openAt, openAt_openAt modules le]
      rw [walk, walk, walk.go, walk.go, same]

/-- The scan comes from `c` to `d` without an item. -/
def Passes (c d : Cursor) : Prop :=
  ∀ s, walk scanStep scanEnd s c = walk scanStep scanEnd s d

variable {c d e : Cursor} {n : Nat}

theorem Passes.refl (c : Cursor) : Passes c c :=
  fun _ => rfl

theorem Passes.trans (h : Passes c d) (h' : Passes d e) : Passes c e :=
  fun s => (h s).trans (h' s)

theorem Passes.step (h : ∀ s, c.scanStep s = .ok (.move ⟨s.items, openAt s.modules c.offset⟩ n))
    (pos : 0 < n) (le : n ≤ c.ahead.length) : Passes c (c.advance n) :=
  fun s => (walk_move (h s) pos le).trans
    (walk_openAt s.items s.modules (by rw [advance_offset]; omega))

/-- Nothing begins here that the scan looks at. -/
structure Quiet (c : Cursor) : Prop where
  noModule : c.startsKeyword ["mod"] = false
  noItem : c.mayStartItem = false

theorem Passes.lexeme (quiet : c.Quiet) (h : c.lexeme? = .ok (some n)) : Passes c (c.advance n) := by
  refine .step (fun s => ?_) (lexeme?_bounds h).1 (lexeme?_bounds h).2
  rw [scanStep, if_neg (by rw [quiet.noModule]; decide), if_neg (by rw [quiet.noItem]; decide), h]
  rfl

theorem Passes.char {ch : Char} (quiet : c.Quiet) (first : c.ahead.head? = some ch)
    (h : c.lexeme? = .ok none) : Passes c (c.advance 1) := by
  have le : 1 ≤ c.ahead.length := by
    obtain ⟨w, eq⟩ := List.head?_eq_some_iff.mp first
    rw [eq, List.length_cons]
    omega
  refine .step (fun s => ?_) Nat.one_pos le
  rw [scanStep, if_neg (by rw [quiet.noModule]; decide), if_neg (by rw [quiet.noItem]; decide), h]
  rfl

/-- A word that begins here is no keyword. -/
theorem Quiet.of_noWord (noDoc : startsDocComment c.ahead = false) (noAttribute : c.sees "#[" = false)
    (noWord : c.atWordStart = false ∨ ∀ w, Text.identifier? c.ahead = some w → w ∉ reservedWords) :
    c.Quiet := by
  have noKeyword (keywords : List Text) (sub : ∀ w ∈ keywords, w ∈ reservedWords) :
      c.startsKeyword keywords = false := by
    rcases noWord with inside | noWord
    · rw [startsKeyword, inside]
      rfl
    · rw [startsKeyword, Bool.and_eq_false_iff]
      right
      cases found : Text.identifier? c.ahead with
      | none => rfl
      | some w =>
          refine Bool.eq_false_iff.mpr fun keyword => noWord w found (sub w ?_)
          exact List.contains_iff_mem.mp keyword
  refine ⟨noKeyword _ (by decide), ?_⟩
  rw [mayStartItem, noDoc, noAttribute, noKeyword _ (by decide)]
  rfl

theorem Quiet.of_firm (firm : c.ahead.Firm)
    (noWord : c.atWordStart = false ∨ ∀ w, Text.identifier? c.ahead = some w → w ∉ reservedWords) :
    c.Quiet :=
  .of_noWord firm.still.noDoc firm.still.noAttribute noWord

/-- A place where neither a name nor a note begins. -/
theorem Quiet.of_first {ch : Char} (first : c.ahead.head? = some ch) (noSlash : ch ≠ '/')
    (noHash : ch ≠ '#') (noName : isNameStart ch = false) : c.Quiet := by
  refine .of_noWord (startsDocComment_of_first fun h => ?_) (sees_hash_of_first fun h => ?_)
    (.inr fun w found => ?_)
  · rw [first] at h
    exact noSlash (Option.some.inj h)
  · rw [first] at h
    exact noHash (Option.some.inj h)
  · rw [Text.identifier?_eq_none fun ch' first' => by
      rw [first] at first'
      cases first'
      exact noName] at found
    cases found

/-- The rest of a word. -/
theorem passes_inside {u w : Text} : ∀ {c : Cursor} {b : Char}, c.before = some b → isWord b = true →
    c.ahead = u ++ w → (∀ ch ∈ u, isWord ch = true) → Passes c (c.advance u.length) := by
  induction u with
  | nil =>
      intro c b _ _ _ _
      rw [List.length_nil, advance_zero]
      exact .refl c
  | cons ch u ih =>
      intro c b before word eq inside
      have here := inside ch List.mem_cons_self
      have first : c.ahead.head? = some ch := by rw [eq]; rfl
      have quiet : c.Quiet := by
        refine .of_firm (by rw [eq]; exact .of_isWord here) (.inl ?_)
        rw [atWordStart, before]
        simp [word]
      have one := Passes.char quiet first (lexeme?_of_isWord first (.inl here) (rawOpener?_of_before before word))
      have next : (c.advance 1).ahead = u ++ w := by rw [advance_ahead, eq]; rfl
      have before' : (c.advance 1).before = some ch := before_advance (u := []) (w := u ++ w) eq
      have rest := ih before' here next fun ch mem => inside ch (List.mem_cons_of_mem _ mem)
      rw [advance_advance, Nat.add_comm] at rest
      exact one.trans rest

/-- A word that is no keyword. -/
theorem passes_word {u w : Text} (eq : c.ahead = u ++ w) (word : ∀ ch ∈ u, isWord ch = true)
    (quiet : c.Quiet) (noOpener : c.rawOpener? = none) : Passes c (c.advance u.length) := by
  cases u with
  | nil =>
      rw [List.length_nil, advance_zero]
      exact .refl c
  | cons ch u =>
      have here := word ch List.mem_cons_self
      have first : c.ahead.head? = some ch := by rw [eq]; rfl
      have one := Passes.char quiet first (lexeme?_of_isWord first (.inl here) noOpener)
      have next : (c.advance 1).ahead = u ++ w := by rw [advance_ahead, eq]; rfl
      have before' : (c.advance 1).before = some ch := before_advance (u := []) (w := u ++ w) eq
      have rest := passes_inside before' here next fun ch mem => word ch (List.mem_cons_of_mem _ mem)
      rw [advance_advance, Nat.add_comm] at rest
      exact one.trans rest

theorem passes_blanks {b w : Text} : ∀ {c : Cursor}, c.ahead = b ++ w → IsGap b →
    Passes c (c.advance b.length) := by
  induction b with
  | nil =>
      intro c _ _
      rw [List.length_nil, advance_zero]
      exact .refl c
  | cons ch b ih =>
      intro c eq blank
      have here := blank ch List.mem_cons_self
      have first : c.ahead.head? = some ch := by rw [eq]; rfl
      have noName : isNameStart ch = false := by
        by_contra start
        rw [Bool.not_eq_false] at start
        have word := isWord_of_isNameStart start
        rw [not_isWord_of_isBlank here] at word
        cases word
      have quiet : c.Quiet := .of_first first (ne_of_isBlank here rfl) (ne_of_isBlank here rfl) noName
      have one := Passes.char quiet first (lexeme?_of_blank first here)
      have next : (c.advance 1).ahead = b ++ w := by rw [advance_ahead, eq]; rfl
      have rest := ih next fun ch mem => blank ch (List.mem_cons_of_mem _ mem)
      rw [advance_advance, Nat.add_comm] at rest
      exact one.trans rest

/-- A character that is neither part of a word nor the start of a lexeme or note. -/
theorem passes_char {ch : Char} {w : Text} (eq : c.ahead = ch :: w) (noStart : mayStartLexeme ch = false)
    (noHash : ch ≠ '#') (noName : isNameStart ch = false) : Passes c (c.advance 1) := by
  have first : c.ahead.head? = some ch := by rw [eq]; rfl
  have noSlash : ch ≠ '/' := by
    rintro rfl
    cases noStart
  refine .char (.of_first first noSlash noHash noName) first (lexeme?_eq_none fun ch' first' => ?_)
  rw [first] at first'
  cases first'
  exact noStart

end Cursor

/-! ## §2. Tokens that are passed. -/

theorem isName_of_reserved {n : Text} (h : n ∈ reservedWords) : IsName n := by
  simp only [reservedWords, List.mem_cons, List.not_mem_nil, or_false] at h
  rcases h with rfl | rfl | rfl | rfl
  · exact ⟨'e', ['n', 'u', 'm'], rfl, rfl, by decide⟩
  · exact ⟨'s', ['t', 'r', 'u', 'c', 't'], rfl, rfl, by decide⟩
  · exact ⟨'m', ['o', 'd'], rfl, rfl, by decide⟩
  · exact ⟨'p', ['u', 'b'], rfl, rfl, by decide⟩

section Tokens

variable {c : Cursor} {w : Text}

/-- A name that is no keyword. -/
theorem passes_name {n : Text} (name : IsName n) (free : n ∉ reservedWords) (eq : c.ahead = n ++ w)
    (sealed : w.Sealed) : Passes c (c.advance n.length) := by
  have firm : c.ahead.Firm := by
    rw [eq]
    exact name.firm w
  refine passes_word eq name.isWord (.of_firm firm (.inr fun v found => ?_))
    (rawOpener?_sealed eq name.isWord sealed)
  rw [eq, IsIdentifier.identifier?_text (.inl name) sealed] at found
  cases found
  exact free

/-- The mark of a raw identifier. -/
theorem Identifier.passes_raw {i : Identifier} {n : Text} (raw : i.text = 'r' :: '#' :: n)
    (name : IsName n) (eq : c.ahead = i.text ++ w) (sealed : w.Sealed) : Passes c (c.advance 2) := by
  have firm : c.ahead.Firm := by
    rw [eq, raw]
    exact .of_isWord rfl
  have plain := plainWord_sealed i.isIdentifier eq sealed
  have size : 2 ≤ i.text.length := by
    rw [raw]
    simp
  have ahead : c.ahead = 'r' :: '#' :: (n ++ w) := by rw [eq, raw]; rfl
  have letter : c.ahead.head? = some 'r' := by rw [ahead]; rfl
  have quiet : c.Quiet := .of_firm firm (.inr fun v found => by
    rw [eq, i.isIdentifier.identifier?_text sealed] at found
    cases found
    exact i.free)
  have noOpener : c.rawOpener? = none := by
    have here := plain 0 (by omega)
    rwa [advance_zero] at here
  have one := Passes.char quiet letter (lexeme?_of_isWord letter (.inl rfl) noOpener)
  have next : (c.advance 1).ahead = '#' :: (n ++ w) := by rw [advance_ahead, ahead]; rfl
  have hash : (c.advance 1).ahead.head? = some '#' := by rw [next]; rfl
  have quiet' : (c.advance 1).Quiet := by
    obtain ⟨ch, v, rfl, start, _⟩ := name
    refine .of_noWord (startsDocComment_of_first (by rw [hash]; decide)) ?_ (.inr fun v found => ?_)
    · rw [Cursor.sees, next]
      have other : ch ≠ '[' := by
        rintro rfl
        cases start
      simp [Text.startsWith, List.isPrefixOf, Ne.symm other]
    · rw [Text.identifier?_eq_none fun ch' first' => by
        rw [hash] at first'
        cases first'
        rfl] at found
      cases found
  have two := Passes.char quiet' hash (lexeme?_of_isWord hash (.inr rfl) (plain 1 (by omega)))
  rw [advance_advance] at two
  exact one.trans two

theorem Text.Sealed.takeWhile_append (sealed : w.Sealed) (u : Text) :
    (u ++ w).takeWhile isWord = u.takeWhile isWord := by
  induction u with
  | nil =>
      cases w with
      | nil => rfl
      | cons ch w => simp [(sealed ch rfl).1]
  | cons ch u ih => rw [List.cons_append, List.takeWhile_cons, List.takeWhile_cons, ih]

/-- A keyword is read where the word ahead is that keyword. -/
theorem takeWhile_of_identifier? {t n : Text} (h : Text.identifier? t = some n) (reserved : n ∈ reservedWords) :
    t.takeWhile isWord = n := by
  obtain ⟨rest, rfl, _, stop⟩ := Text.identifier?_some h
  exact takeWhile_append_stop (isName_of_reserved reserved).isWord stop

/-- Words with points between them; no keyword stands behind a point. -/
theorem passes_words {u : Text} (sealed : w.Sealed) : ∀ {c : Cursor}, c.ahead = u ++ w →
    (∀ ch ∈ u, isWord ch = true ∨ ch = '.') →
    (∀ v v', u = v ++ '.' :: v' → v'.takeWhile isWord ∉ reservedWords) →
    (c.atWordStart = false ∨ u.takeWhile isWord ∉ reservedWords) → Passes c (c.advance u.length) := by
  induction u with
  | nil =>
      intro c _ _ _ _
      rw [List.length_nil, advance_zero]
      exact .refl c
  | cons ch u ih =>
      intro c eq inside free start
      have first : c.ahead.head? = some ch := by rw [eq]; rfl
      have next : (c.advance 1).ahead = u ++ w := by rw [advance_ahead, eq]; rfl
      have before : (c.advance 1).before = some ch := before_advance (u := []) (w := u ++ w) eq
      have rest := ih next (fun ch mem => inside ch (List.mem_cons_of_mem _ mem))
        fun v v' same => free (ch :: v) v' (by rw [same]; rfl)
      rw [advance_advance, Nat.add_comm] at rest
      rcases inside ch List.mem_cons_self with word | rfl
      · have plain : ∀ x ∈ ch :: u, x ≠ '#' ∧ x ≠ '"' := by
          intro x mem
          constructor <;> rintro rfl <;> rcases inside _ mem with h | h <;> cases h
        have noWord : c.atWordStart = false ∨ ∀ n, Text.identifier? c.ahead = some n → n ∉ reservedWords := by
          refine start.imp_right fun other n found reserved => ?_
          have same := takeWhile_of_identifier? found reserved
          rw [eq, sealed.takeWhile_append] at same
          rw [same] at other
          exact other reserved
        have quiet : c.Quiet := .of_firm (by rw [eq]; exact .of_isWord word) noWord
        have one := Passes.char quiet first
          (lexeme?_of_isWord first (.inl word) (rawOpener?_of_plain plain eq sealed))
        refine one.trans (rest (.inl ?_))
        rw [atWordStart, before]
        simp [word]
      · have point : Passes c (c.advance 1) := passes_char (w := u ++ w) eq rfl (by decide) rfl
        exact point.trans (rest (.inr (free [] u rfl)))

theorem Number.passes {n : Number} (eq : c.ahead = n.text ++ w) (sealed : w.Sealed) :
    Passes c (c.advance n.text.length) := by
  refine passes_words sealed eq n.word n.free (.inr fun reserved => ?_)
  obtain ⟨d, v, text, digit⟩ := n.digit
  obtain ⟨ch, more, shape, start, _⟩ := isName_of_reserved reserved
  rw [text, List.takeWhile_cons, if_pos (isWord_of_isDigit digit)] at shape
  rw [← (List.cons.inj shape).1, not_isNameStart_of_isDigit digit] at start
  cases start

theorem Lifetime.passes {l : Lifetime} (eq : c.ahead = '\'' :: l.name ++ w) (sealed : w.Sealed) :
    Passes c (c.advance ('\'' :: l.name).length) := by
  have first : c.ahead.head? = some '\'' := by rw [eq]; rfl
  have tick := Passes.lexeme (.of_first first (by decide) (by decide) rfl) (lexeme?_tick l.isName sealed eq)
  have next : (c.advance 1).ahead = l.name ++ w := by rw [advance_ahead, eq]; rfl
  have word := passes_name l.isName l.free next sealed
  rw [advance_advance, Nat.add_comm] at word
  exact tick.trans word

/-- Where a literal may begin the scan looks for nothing. -/
theorem Cursor.Quiet.of_literal {ch : Char} (first : c.ahead.head? = some ch) (mem : ch ∈ literalStarts) : c.Quiet := by
  have other : ∀ ch ∈ literalStarts, ch ≠ '/' ∧ ch ≠ '#' := by decide
  refine .of_noWord (startsDocComment_of_first fun slash => ?_) (sees_hash_of_first fun hash => ?_)
    (.inr fun n found => Text.not_mem_reserved first mem found)
  · rw [first] at slash
    exact (other ch mem).1 (Option.some.inj slash)
  · rw [first] at hash
    exact (other ch mem).2 (Option.some.inj hash)

theorem Literal.passes {l : Literal} (eq : c.ahead = l.text ++ w) (fresh : c.Fresh) :
    Passes c (c.advance l.text.length) := by
  have ahead := Literal.ahead_lexeme eq
  have letters : Passes c (c.advance l.letters.length) := by
    by_cases none : l.letters = []
    · rw [none, List.length_nil, advance_zero]
      exact .refl c
    obtain ⟨word, free⟩ := l.letters_plain
    obtain ⟨ch, mem, v, shape, _⟩ := l.exists_first
    have quiet : c.Quiet := .of_literal (by rw [eq, shape]; rfl) mem
    rw [Literal.text, List.append_assoc] at eq
    refine passes_word eq word quiet ?_
    rw [Cursor.rawOpener?, eq, rawOpener?_word word (l.not_isWord_of_lexeme none w) fun raw => absurd raw free,
      ite_self]
  obtain ⟨ch, mem, v, shape, _⟩ := l.exists_lexeme
  have first : ∀ ch ∈ ['"', '\'', 'r', 'b'], ch ∈ literalStarts := by decide
  have quiet : (c.advance l.letters.length).Quiet := .of_literal (by rw [ahead, shape]; rfl) (first ch mem)
  have lexeme := Passes.lexeme quiet (Literal.lexeme?_eq ahead (Literal.fresh_lexeme eq fresh))
  rw [advance_advance, ← List.length_append] at lexeme
  exact letters.trans lexeme

end Tokens

/-! ## §3. Heads of declarations. -/

theorem Cursor.Prelude.offset_lt {c head : Cursor} {a : Attribute} {attrs : List Attribute}
    (h : Prelude c (a :: attrs) head) : c.offset < head.offset := by
  have step {n : Nat} (pos : 0 < n) (onward : (c.advance n).LeadsTo head) : c.offset < head.offset := by
    have le := onward.offset_le
    rw [advance_offset] at le
    omega
  cases h with
  | trivia h rest => exact step (trivium?_bounds h).1 rest.leadsTo
  | doc _ doc rest => exact step doc.bounds.1 rest.leadsTo
  | bracketed _ _ sees read rest => exact step (readAttribute_bounds sees read).1 rest.leadsTo

namespace Cursor

variable {c next : Cursor} {module : List Text} {item? : Option Item}

/-- A head is read where one may begin, and the scan goes on behind it. -/
theorem walk_head (noModule : c.startsKeyword ["mod"] = false) (starts : c.mayStartItem = true)
    (more : c.ahead ≠ []) (s : Scan)
    (h : HeadRead c ((openAt s.modules c.offset).reverse.map (·.name)) item? next) :
    walk scanStep scanEnd s c = walk scanStep scanEnd ⟨item?.toList ++ s.items, s.modules⟩ next := by
  obtain ⟨onward, lt⟩ := h.leadsTo more
  have le : next.offset - c.offset ≤ c.ahead.length := by
    have ends := onward.end_eq
    omega
  have step : c.scanStep s
      = .ok (.move ⟨item?.toList ++ s.items, openAt s.modules c.offset⟩ (next.offset - c.offset)) := by
    rw [scanStep, if_neg (by rw [noModule]; decide), if_pos starts]
    exact bind_ok_iff.mpr ⟨(item?, next), readItem_ok_iff.mpr h, rfl⟩
  rw [walk_move step (Nat.sub_pos_of_lt lt) le, ← onward.eq_advance,
    walk_openAt _ _ (Nat.le_of_lt lt)]

/-- Where nothing is declared the open modules do not matter. -/
theorem HeadRead.anywhere {module' : List Text} (h : HeadRead c module none next) :
    HeadRead c module' none next := by
  cases h with
  | nameless h keyword toName noName => exact .nameless h keyword toName noName
  | other h noKeyword => exact .other h noKeyword

/-- A head that declares nothing. -/
theorem Passes.head (noModule : c.startsKeyword ["mod"] = false) (starts : c.mayStartItem = true)
    (more : c.ahead ≠ []) (h : HeadRead c [] none next) : Passes c next :=
  fun s => walk_head noModule starts more s h.anywhere

end Cursor

/-! ## §4. Keywords. -/

/-- The keyword `n` stands at the start of a word, with `w` behind it. -/
structure KeywordAt (c : Cursor) (n w : Text) : Prop where
  start : c.atWordStart = true
  reserved : n ∈ reservedWords
  ahead : c.ahead = n ++ w
  sealed : w.Sealed

namespace KeywordAt

variable {c : Cursor} {n w : Text} (h : KeywordAt c n w)

include h

theorem identifier? : c.identifier? = some (n, c.advance n.length) :=
  IsIdentifier.identifier? (.inl (isName_of_reserved h.reserved)) h.ahead h.sealed

theorem firm : c.ahead.Firm := by
  rw [h.ahead]
  exact (isName_of_reserved h.reserved).firm w

theorem startsKeyword (keywords : List Text) : c.startsKeyword keywords = keywords.contains n := by
  have found := (identifier?_eq_some h.identifier?).1
  rw [Cursor.startsKeyword, h.start, found]
  simp

theorem ne_nil : c.ahead ≠ [] := by
  rw [h.ahead]
  simp [(isName_of_reserved h.reserved).ne_nil]

theorem prelude : Prelude c [] c :=
  .stop h.firm.still.trivium? h.firm.still.noDoc h.firm.still.noAttribute

/-- A keyword of a declaration has no visibility before it. -/
theorem noVisibility {kind : DeclKind} (keyword : n = kind.keyword) : Visibility c [] c := by
  refine .none fun after same => ?_
  rw [h.identifier?, keyword] at same
  cases kind <;> cases same

theorem noModule (other : n ≠ "mod") : c.startsKeyword ["mod"] = false := by
  rw [h.startsKeyword]
  simpa using other

theorem mayStartItem (other : n ≠ "mod") : c.mayStartItem = true := by
  have reserved := h.reserved
  rw [Cursor.mayStartItem, h.startsKeyword]
  simp only [reservedWords, List.mem_cons, List.not_mem_nil, or_false] at reserved
  rcases reserved with rfl | rfl | rfl | rfl
  · simp
  · simp
  · exact absurd rfl other
  · simp

/-- Behind `enum` and `struct` no name follows. -/
theorem passes_declaration {kind : DeclKind} {d : Cursor} (keyword : n = kind.keyword)
    (toName : Trivia false (c.advance n.length) d) (noName : d.identifier? = none) :
    Passes c (c.advance n.length) := by
  have other : n ≠ "mod" := by
    rw [keyword]
    cases kind <;> decide
  have head : HeadAt c [] c [] c c := ⟨h.prelude, h.noVisibility keyword, .stop h.firm.still.trivium?⟩
  have identifier := h.identifier?
  rw [keyword] at identifier toName
  rw [keyword]
  exact .head (h.noModule other) (h.mayStartItem other) h.ne_nil (.nameless head identifier toName noName)

/-- Behind `mod` no module opens. -/
theorem passes_module (keyword : n = "mod") (none : c.openModule? = .ok none) :
    Passes c (c.advance n.length) := by
  have starts : c.startsKeyword ["mod"] = true := by
    rw [h.startsKeyword, keyword]
    rfl
  have size : n.length = 3 := by
    rw [keyword]
    rfl
  have le : 3 ≤ c.ahead.length := by
    rw [h.ahead, List.length_append, size]
    omega
  rw [size]
  refine .step (fun s => ?_) (by decide) le
  rw [scanStep, if_pos starts, none]
  rfl

/-- Behind a visibility no declaration follows. -/
theorem passes_visibility {v : Text} {behind place : Cursor} (keyword : n = "pub")
    (visible : Visibility c v behind) (toPlace : Trivia false behind place)
    (noKeyword : ∀ kind after, place.identifier? ≠ some (DeclKind.keyword kind, after))
    (lt : c.offset < place.offset) : Passes c place := by
  have other : n ≠ "mod" := by
    rw [keyword]
    decide
  have passes := Passes.head (h.noModule other) (h.mayStartItem other) h.ne_nil
    (.other ⟨h.prelude, visible, toPlace⟩ noKeyword)
  rwa [if_neg (by omega)] at passes

end KeywordAt

end EnumExtract
