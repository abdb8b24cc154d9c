/-
  EnumExtract.Proofs.Grammar.Tokens
  ────────────────────────────────
  Tokens of a declaration, and how they are written: one after the other, with
  white space between them.

  An attribute and a doc comment, the notes of a prelude, are one token each, the
  doc comment with the line feed that ends it.  `Spaced tail ts t` says that the text `t` writes the
  tokens `ts` and that `tail` stands behind them; white space is arbitrary, but
  a token is kept apart from what would be glued to it.

  Main results:
    • `Spaced.split`   a text of a list of tokens is one of each of its parts,
    • `Spaced.reads`   tokens are read to their end, and the brackets that are
                       open are known.
-/
import EnumExtract.Proofs.Grammar.Attributes
import EnumExtract.Proofs.Grammar.Literals

namespace EnumExtract

open Cursor

/-! ## §1. Tokens. -/

/-- The keywords that begin declarations. -/
def reservedWords : List Text :=
  ["enum", "struct", "mod", "pub"]

/-- A name, raw or not, that is no such keyword. -/
structure Identifier where
  text : Text
  isIdentifier : IsIdentifier text
  free : text ∉ reservedWords

structure Lifetime where
  name : Text
  isName : IsName name
  free : name ∉ reservedWords

/-- A number with what is glued to it, such as `1_u8`, `2.5`, `0..4` or `0.len`; no keyword stands behind a
point of it. -/
structure Number where
  text : Text
  digit : ∃ d v, text = d :: v ∧ d.isDigit = true
  word : ∀ ch ∈ text, isWord ch = true ∨ ch = '.'
  free : ∀ u v, text = u ++ '.' :: v → v.takeWhile isWord ∉ reservedWords

/-- A note: what may stand in a prelude. -/
inductive Note where
  | doc (d : DocComment)
  | bracketed (a : AttributeSyntax)

namespace Note

def text : Note → Text
  | doc d => d.text
  | bracketed a => a.text

/-- The text that a field carries along. -/
def shown : Note → Text
  | doc d => d.shown
  | bracketed a => a.text

/-- The attribute that is read where the text stands at `offset`. -/
def placed (offset : Nat) : Note → Attribute
  | doc d => ⟨"doc", d.shown, offset, offset + d.shown.length, none⟩
  | bracketed a => a.placed offset

end Note

/-- Brackets, separators and operators; two of them that are written without a blank are one only in
`::`, `->` and `=>`. -/
inductive Mark where
  | openParen | closeParen | openBracket | closeBracket | openBrace | closeBrace
  | less | greater | comma | semicolon | ampersand | colon | colons | arrow | fatArrow
  | star | slash | plus | minus | equals | question | bang | dot | percent | caret | bar | tilde | atSign | dollar
  deriving DecidableEq

def Mark.text : Mark → Text
  | openParen => "("
  | closeParen => ")"
  | openBracket => "["
  | closeBracket => "]"
  | openBrace => "\x7b"
  | closeBrace => "\x7d"
  | less => "<"
  | greater => ">"
  | comma => ","
  | semicolon => ";"
  | ampersand => "&"
  | colon => ":"
  | colons => "::"
  | arrow => "->"
  | fatArrow => "=>"
  | star => "*"
  | slash => "/"
  | plus => "+"
  | minus => "-"
  | equals => "="
  | question => "?"
  | bang => "!"
  | dot => "."
  | percent => "%"
  | caret => "^"
  | bar => "|"
  | tilde => "~"
  | atSign => "@"
  | dollar => "$"

inductive Token where
  | name (i : Identifier)
  | number (n : Number)
  | lifetime (l : Lifetime)
  | literal (l : Literal)
  | mark (m : Mark)
  | note (a : Note)

namespace Token

def text : Token → Text
  | name i => i.text
  | number n => n.text
  | lifetime l => '\'' :: l.name
  | literal l => l.text
  | mark m => m.text
  | note a => a.text

def isNote : Token → Bool
  | note _ => true
  | _ => false

/-- The token is not glued to `w` behind it. -/
def Apart : Token → Text → Prop
  | name _, w => w.Sealed
  | number _, w => w.Sealed ∧ w.head? ≠ some '.'
  | lifetime _, w => w.Sealed
  | literal _, w => ∀ ch, w.head? = some ch → isWord ch = false
  | mark .colon, w => w.head? ≠ some ':'
  | mark .slash, w => w.head? ≠ some '/' ∧ w.head? ≠ some '*'
  | mark .minus, w | mark .equals, w => w.head? ≠ some '>'
  | mark _, _ => True
  | note _, _ => True

end Token

/-- The text writes the tokens, and `tail` stands behind them. -/
inductive Spaced (tail : Text) : List Token → Text → Prop where
  | nil {gap : Text} (blank : IsGap gap) : Spaced tail [] (gap ++ tail)
  | cons {gap w : Text} {tok : Token} {ts : List Token} (blank : IsGap gap) (apart : tok.Apart w)
      (rest : Spaced tail ts w) : Spaced tail (tok :: ts) (gap ++ (tok.text ++ w))

namespace Spaced

variable {tail mid t : Text} {ts us : List Token} {tok : Token}

theorem gap {gap : Text} (blank : IsGap gap) (h : Spaced tail ts t) : Spaced tail ts (gap ++ t) := by
  cases h with
  | nil blank' =>
      rw [← List.append_assoc]
      exact .nil (blank.append blank')
  | cons blank' apart rest =>
      rw [← List.append_assoc]
      exact .cons (blank.append blank') apart rest

theorem done : Spaced tail [] tail :=
  @nil tail [] IsGap.nil

/-- A token right in front of what comes next. -/
theorem token (apart : tok.Apart t) (rest : Spaced tail ts t) : Spaced tail (tok :: ts) (tok.text ++ t) :=
  .cons IsGap.nil apart rest

/-- White space in front of what stands behind the tokens may count as theirs. -/
theorem of_gap {gap : Text} (blank : IsGap gap) (h : Spaced (gap ++ tail) ts t) : Spaced tail ts t := by
  induction h with
  | nil blank' =>
      rw [← List.append_assoc]
      exact .nil (blank'.append blank)
  | cons blank' apart rest ih => exact .cons blank' apart ih

theorem split (h : Spaced tail (ts ++ us) t) : ∃ mid, Spaced mid ts t ∧ Spaced tail us mid := by
  induction ts generalizing t with
  | nil => exact ⟨t, .nil IsGap.nil, h⟩
  | cons tok ts ih =>
      cases h with
      | cons blank apart rest =>
          obtain ⟨mid, left, right⟩ := ih rest
          exact ⟨mid, .cons blank apart left, right⟩

/-- The text behind the white space in front of the tokens. -/
theorem exists_gap (h : Spaced tail ts t) : ∃ b t', t = b ++ t' ∧ IsGap b
    ∧ ((ts = [] ∧ t' = tail) ∨ ∃ tok us w, ts = tok :: us ∧ t' = tok.text ++ w ∧ tok.Apart w
      ∧ Spaced tail us w) := by
  cases h with
  | nil blank => exact ⟨_, tail, rfl, blank, .inl ⟨rfl, rfl⟩⟩
  | cons blank apart rest => exact ⟨_, _, rfl, blank, .inr ⟨_, _, _, rfl, rfl, apart, rest⟩⟩

end Spaced

/-! ## §2. Open brackets. -/

/-- The brackets that are open at a place, innermost first, and the angle brackets outside all of
them. -/
structure Opened where
  closers : List Char
  angles : Nat

namespace Opened

def start : Opened :=
  ⟨[], 0⟩

def push (o : Opened) (closer : Char) : Opened :=
  ⟨closer :: o.closers, o.angles⟩

def pop (o : Opened) (closer : Char) : Option Opened :=
  match o.closers with
  | innermost :: outer => if innermost = closer then some ⟨outer, o.angles⟩ else none
  | [] => none

/-- A comma here separates pieces of the list. -/
def Cuts (o : Opened) : Prop :=
  o.closers = [] ∧ o.angles = 0

instance (o : Opened) : Decidable o.Cuts :=
  inferInstanceAs (Decidable (_ ∧ _))

end Opened

/-- What is open behind a mark.  There is no answer for a bracket that closes nothing, for a
comma that separates, and for the arrow of a match outside all brackets. -/
def Mark.track (o : Opened) : Mark → Option Opened
  | openParen => some (o.push ')')
  | openBracket => some (o.push ']')
  | openBrace => some (o.push '\x7d')
  | closeParen => o.pop ')'
  | closeBracket => o.pop ']'
  | closeBrace => o.pop '\x7d'
  | less => some (if o.closers = [] then ⟨[], o.angles + 1⟩ else o)
  | greater => some (if o.closers = [] then ⟨[], o.angles - 1⟩ else o)
  | comma => if o.Cuts then none else some o
  | fatArrow => if o.closers = [] then none else some o
  | _ => some o

def Token.track (o : Opened) : Token → Option Opened
  | mark m => m.track o
  | _ => some o

def Opened.track (o : Opened) : List Token → Option Opened
  | [] => some o
  | tok :: ts => (tok.track o).bind (·.track ts)

theorem Opened.track_append (ts us : List Token) : ∀ o : Opened,
    o.track (ts ++ us) = (o.track ts).bind (·.track us) := by
  induction ts with
  | nil => intro o; rfl
  | cons tok ts ih =>
      intro o
      rw [List.cons_append, track, track, Option.bind_assoc]
      congr 1
      funext o'
      exact ih o'

/-! ## §3. Code and open brackets. -/

/-- The state of a cutting of which only what is open is known. -/
def Opened.cutting (o : Opened) (found : List Piece) (start : Cursor) : Cutting :=
  ⟨found, start, o.closers.length, o.angles⟩

/-- Over the code `code` what is open changes from `o` to `o'`, and no comma separates. -/
structure Carries (code : List (Cursor × Char)) (o o' : Opened) : Prop where
  nests : nest o.closers (chars code) = some o'.closers
  cuts : ∀ found start, (o.cutting found start).over code = o'.cutting found start

namespace Carries

variable {code more : List (Cursor × Char)} {o o' o'' : Opened} {x y : Cursor} {ch : Char}

theorem nil (o : Opened) : Carries [] o o :=
  ⟨rfl, fun _ _ => rfl⟩

theorem append (h : Carries code o o') (h' : Carries more o' o'') : Carries (code ++ more) o o'' := by
  refine ⟨?_, fun found start => ?_⟩
  · rw [chars_append, nest_append_eq, h.nests]
    exact h'.nests
  · rw [Cutting.over_append, h.cuts, h'.cuts]

/-- A character that neither opens nor closes nor separates. -/
def plainChar (ch : Char) : Bool :=
  bracketWeight ch == 0 && ch != '<' && ch != '>' && ch != ','

theorem single (h : plainChar ch = true) : Carries [(x, ch)] o o := by
  simp only [plainChar, Bool.and_eq_true, beq_iff_eq, bne_iff_ne] at h
  obtain ⟨⟨⟨weight, less⟩, greater⟩, comma⟩ := h
  refine ⟨nest_of_plain _ (by simpa using weight), fun found start => ?_⟩
  have opens : (closer? ch).isSome = false := by
    by_contra h
    rw [Bool.not_eq_false] at h
    simp [bracketWeight, h] at weight
  have closes : isCloser ch = false := by
    by_contra h
    rw [Bool.not_eq_false] at h
    simp [bracketWeight, opens, h] at weight
  rw [Cutting.over_cons, Cutting.over_nil, Cutting.read]
  simp [opens, closes, less, greater, comma]

theorem of_plain {code : List (Cursor × Char)} (h : ∀ ch ∈ chars code, plainChar ch = true) :
    Carries code o o := by
  induction code with
  | nil => exact .nil o
  | cons x code ih =>
      have first : Carries [x] o o := single (h x.2 List.mem_cons_self)
      exact first.append (ih fun ch mem => h ch (List.mem_cons_of_mem _ mem))

/-- Inside a bracket that stays open a cutting changes its depth only. -/
theorem over_inside {code : List (Cursor × Char)} : ∀ {inner inner' : List Char} {s : Cutting} {k : Int},
    nest inner (chars code) = some inner' → s.depth = k + inner.length → 1 ≤ k →
      s.over code = ⟨s.found, s.start, k + inner'.length, s.angle⟩ := by
  induction code with
  | nil =>
      intro inner inner' s k h depth _
      cases h
      rw [Cutting.over_nil, ← depth]
  | cons x code ih =>
      intro inner inner' s k h depth pos
      rw [chars_cons, nest_cons] at h
      obtain ⟨between, hfirst, hrest⟩ := Option.bind_eq_some_iff.mp h
      have size := length_of_nest hfirst
      rw [level_cons, level_nil, Int.add_zero] at size
      have deep : s.depth ≠ 0 := by omega
      have read : s.read x.1 x.2 = ⟨s.found, s.start, k + between.length, s.angle⟩ := by
        rw [size, ← Int.add_assoc, ← depth, Cutting.read, bracketWeight]
        split
        next => rfl
        next =>
          split
          next => rfl
          next => rw [Int.add_zero]
      rw [Cutting.over_cons, read, ih hrest rfl pos]

/-- A bracket around balanced code. -/
theorem group {opener closer : Char} (h : closer? opener = some closer) (inner : Balanced code) :
    Carries ((x, opener) :: (code ++ [(y, closer)])) o o := by
  refine ⟨Balanced.group h inner o.closers, fun found start => ?_⟩
  have closes := (isCloser_of_closer? h).1
  have opened : (o.cutting found start).read x opener
      = ⟨found, start, o.closers.length + 1, o.angles⟩ := by
    simp [Cutting.read, h, Opened.cutting]
  have kept : Cutting.over ⟨found, start, o.closers.length + 1, o.angles⟩ code
      = ⟨found, start, o.closers.length + 1, o.angles⟩ := by
    have depth : (o.closers.length : Int) + 1 = (o.closers.length + 1 : Int) + ([] : List Char).length := by
      simp
    rw [over_inside (inner []) depth (by omega)]
    simp
  have closed : Cutting.read ⟨found, start, o.closers.length + 1, o.angles⟩ y closer
      = o.cutting found start := by
    simp [Cutting.read, closer?_of_isCloser closes, closes, Opened.cutting]
  rw [Cutting.over_cons, opened, Cutting.over_append, kept, Cutting.over_cons, closed, Cutting.over_nil]

theorem push {closer : Char} (h : closer? ch = some closer) : Carries [(x, ch)] o (o.push closer) := by
  refine ⟨?_, fun found start => ?_⟩
  · simp [nest, h, Opened.push]
  · simp [Cutting.read, h, Opened.cutting, Opened.push]

theorem pop (closes : isCloser ch = true) (h : o.pop ch = some o') : Carries [(x, ch)] o o' := by
  obtain ⟨closers, angles⟩ := o
  cases closers with
  | nil => cases h
  | cons innermost outer =>
      simp only [Opened.pop, Option.ite_none_right_eq_some, Option.some.injEq] at h
      obtain ⟨rfl, rfl⟩ := h
      refine ⟨?_, fun found start => ?_⟩
      · simp [nest, closer?_of_isCloser closes, closes]
      · simp [Cutting.read, closer?_of_isCloser closes, closes, Opened.cutting]

/-- Inside brackets a character that is no bracket changes nothing. -/
theorem inside (weight : bracketWeight ch = 0) (deep : o.closers ≠ []) : Carries [(x, ch)] o o := by
  refine ⟨nest_of_plain _ (by simpa using weight), fun found start => ?_⟩
  have pos := List.length_pos_of_ne_nil deep
  rw [Cutting.over_cons, Cutting.over_nil, Cutting.read, Opened.cutting]
  unfold bracketWeight at weight
  split at weight
  next => cases weight
  next opens =>
    split at weight
    next => cases weight
    next closes =>
      rw [if_neg opens, if_neg closes, if_pos (by simp only; omega)]

theorem less : Carries [(x, '<')] o (if o.closers = [] then ⟨[], o.angles + 1⟩ else o) := by
  obtain ⟨closers, angles⟩ := o
  by_cases none : closers = []
  · subst none
    exact ⟨rfl, fun _ _ => rfl⟩
  · rw [if_neg none]
    exact inside rfl none

theorem greater (clear : ∀ b, x.before = some b → b ≠ '-' ∧ b ≠ '=') :
    Carries [(x, '>')] o (if o.closers = [] then ⟨[], o.angles - 1⟩ else o) := by
  obtain ⟨closers, angles⟩ := o
  by_cases none : closers = []
  · subst none
    refine ⟨rfl, fun found start => ?_⟩
    have closes : x.before.any (fun b => b == '-' || b == '=') = false := by
      cases before : x.before with
      | none => rfl
      | some b => simp [clear b before]
    simp [Cutting.read, closer?, isCloser, Opened.cutting, closes]
  · rw [if_neg none]
    exact inside rfl none

/-- The head of an arrow closes no angle bracket. -/
theorem arrowHead (before : x.before = some '-') : Carries [(x, '>')] o o := by
  obtain ⟨closers, angles⟩ := o
  by_cases none : closers = []
  · subst none
    refine ⟨rfl, fun found start => ?_⟩
    simp [Cutting.read, closer?, isCloser, Opened.cutting, before]
  · exact inside rfl none

theorem comma (h : ¬ o.Cuts) : Carries [(x, ',')] o o := by
  obtain ⟨closers, angles⟩ := o
  by_cases none : closers = []
  · subst none
    have open' : angles ≠ 0 := fun zero => h ⟨rfl, zero⟩
    refine ⟨rfl, fun found start => ?_⟩
    simp [Cutting.read, closer?, isCloser, Opened.cutting, open']
  · exact inside rfl none

end Carries

/-! ## §4. Reading tokens. -/

/-- Nothing stands before the cursor to which what is right behind it would belong: no operator that takes an
angle bracket along, and no word that goes on. -/
structure Cursor.Clear (c : Cursor) : Prop where
  angle : c.ahead.head? = some '>' → ∀ ch, c.before = some ch → ch ≠ '-' ∧ ch ≠ '='
  fresh : c.Fresh

namespace Cursor

variable {c : Cursor} {u w : Text} {ch : Char}

theorem before_advance (eq : c.ahead = u ++ ch :: w) : (c.advance (u.length + 1)).before = some ch := by
  rw [advance, if_neg (Nat.succ_ne_zero _), Nat.add_sub_cancel, eq,
    List.getElem?_append_right (Nat.le_refl _), Nat.sub_self, List.getElem?_cons_zero]

/-- Before the start of a text there is nothing. -/
theorem Clear.start (t : Text) : (t.cursor 0).Clear :=
  ⟨nofun, fun _ _ _ => rfl⟩

/-- A character that belongs neither to a word nor to an operator with an angle bracket. -/
def isClearing (ch : Char) : Bool :=
  !(isWord ch || ch == '-' || ch == '=')

theorem isClearing_of_isBlank (blank : isBlank ch = true) : isClearing ch = true := by
  have other (x : Char) (plain : isBlank x = false) : ch ≠ x := ne_of_isBlank blank plain
  simp [isClearing, not_isWord_of_isBlank blank, other '-' rfl, other '=' rfl]

theorem isClearing_of_isCloser (closes : isCloser ch = true) : isClearing ch = true := by
  simp only [isCloser, Bool.or_eq_true, beq_iff_eq] at closes
  rcases closes with (rfl | rfl) | rfl <;> rfl

theorem isClearing_of_closer? {closer : Char} (pair : closer? ch = some closer) : isClearing ch = true := by
  unfold closer? at pair
  split at pair <;> first | rfl | cases pair

theorem Clear.behind (v : Text) (ch : Char) (eq : c.ahead = u ++ w) (last : u = v ++ [ch])
    (clearing : isClearing ch = true) : (c.advance u.length).Clear := by
  subst last
  simp only [isClearing, Bool.not_eq_true', Bool.or_eq_false_iff, beq_eq_false_iff_ne] at clearing
  obtain ⟨⟨word, minus⟩, equals⟩ := clearing
  rw [List.append_assoc, List.singleton_append] at eq
  rw [List.length_append, List.length_singleton]
  refine ⟨fun _ ch' before => ?_, .behind eq word⟩
  rw [before_advance eq] at before
  cases before
  exact ⟨minus, equals⟩

/-- Behind a name or number to which no word is glued. -/
theorem Clear.behindWord (eq : c.ahead = u ++ w) (more : u ≠ [])
    (word : ∀ ch ∈ u, isWord ch = true ∨ ch = '#' ∨ ch = '.')
    (stop : ∀ ch, w.head? = some ch → isWord ch = false) : (c.advance u.length).Clear := by
  refine ⟨fun _ ch' before => ?_, .of_stop (by rwa [ahead_advance eq])⟩
  rcases List.eq_nil_or_concat u with rfl | ⟨v, ch, rfl⟩
  · exact absurd rfl more
  rw [List.concat_eq_append, List.append_assoc, List.singleton_append] at eq
  rw [List.concat_eq_append, List.length_append, List.length_singleton, before_advance eq] at before
  have last := word ch (by simp)
  cases before
  constructor <;> rintro rfl <;> rcases last with h | h | h <;> cases h

theorem Clear.gap (h : c.Clear) (blank : IsGap u) (eq : c.ahead = u ++ w) : (c.advance u.length).Clear := by
  rcases List.eq_nil_or_concat u with rfl | ⟨v, ch, rfl⟩
  · rwa [List.length_nil, advance_zero]
  · rw [List.concat_eq_append] at *
    exact .behind v ch eq rfl (isClearing_of_isBlank (blank ch (by simp)))

/-- No raw string opens where no quotation mark stands ahead. -/
theorem rawOpener?_of_not_mem (h : '"' ∉ c.ahead) : c.rawOpener? = none := by
  cases found : c.rawOpener? with
  | none => rfl
  | some o =>
      obtain ⟨letters, _, v, eq, _⟩ := exists_of_rawOpener? (rawOpener?_some found).2
      exact absurd (by rw [eq]; simp) h

/-- No raw string opens in a text with neither hash nor quote to which nothing is glued. -/
theorem rawOpener?_of_plain (plain : ∀ ch ∈ u, ch ≠ '#' ∧ ch ≠ '"') (eq : c.ahead = u ++ w)
    (sealed : w.Sealed) : c.rawOpener? = none := by
  cases w with
  | cons ch w =>
      obtain ⟨word, hash, quote, _⟩ := sealed ch rfl
      have outside : ch ≠ '#' ∧ ch ≠ '"' ∧ ch ≠ 'r' ∧ ch ≠ 'b' := by
        refine ⟨hash, quote, ?_, ?_⟩ <;> rintro rfl <;> cases word
      rw [rawOpener?, eq, rawOpener?_eq_none_of_stop plain outside, ite_self]
  | nil =>
      refine rawOpener?_of_not_mem fun mem => ?_
      rw [eq, List.append_nil] at mem
      exact (plain '"' mem).2 rfl

/-- An identifier to which nothing is glued holds no raw string. -/
theorem plainWord_sealed (h : IsIdentifier u) (eq : c.ahead = u ++ w) (sealed : w.Sealed) :
    c.PlainWord u := by
  cases w with
  | cons ch w =>
      obtain ⟨word, hash, quote, _⟩ := sealed ch rfl
      refine plainWord_of_stop h eq ⟨hash, quote, ?_, ?_⟩ <;> rintro rfl <;> cases word
  | nil =>
      intro k _
      refine rawOpener?_of_not_mem fun mem => ?_
      rw [advance_ahead, eq, List.append_nil] at mem
      rcases h.isWord '"' (List.mem_of_mem_drop mem) with word | hash
      · cases word
      · cases hash

end Cursor

/-- Nothing in a number begins a lexeme. -/
theorem Number.lexeme?_none (n : Number) {c : Cursor} {w : Text} (eq : c.ahead = n.text ++ w) (sealed : w.Sealed) :
    ∀ k < n.text.length, (c.advance k).lexeme? = .ok none := by
  intro k lt
  have first : (c.advance k).ahead.head? = some n.text[k] := by
    rw [advance_ahead, eq, List.head?_drop, List.getElem?_append_left lt, List.getElem?_eq_getElem]
  have here : (c.advance k).ahead = n.text.drop k ++ w := by
    rw [advance_ahead, eq, List.drop_append_of_le_length (Nat.le_of_lt lt)]
  have plain : ∀ ch ∈ n.text.drop k, ch ≠ '#' ∧ ch ≠ '"' := by
    intro ch mem
    constructor <;> rintro rfl <;> rcases n.word _ (List.mem_of_mem_drop mem) with h | h <;> cases h
  rcases n.word n.text[k] (List.getElem_mem lt) with word | point
  · exact lexeme?_of_isWord first (.inl word) (rawOpener?_of_plain plain here sealed)
  · refine lexeme?_eq_none fun ch first' => ?_
    rw [first, point] at first'
    cases first'
    rfl

theorem plainChar_of_isWord {ch : Char} (h : isWord ch = true ∨ ch = '#') : Carries.plainChar ch = true := by
  have other (ch' : Char) (notWord : isWord ch' = false) (notHash : ch' ≠ '#') : (ch != ch') = true := by
    rw [bne_iff_ne]
    rintro rfl
    rcases h with h | h
    · rw [notWord] at h
      cases h
    · exact notHash h
  rw [Carries.plainChar, bracketWeight_of_isWord h, other '<' rfl (by decide), other '>' rfl (by decide),
    other ',' rfl (by decide)]
  rfl

theorem plainChar_of_isBlank {ch : Char} (h : isBlank ch = true) : Carries.plainChar ch = true := by
  have other (ch' : Char) (notBlank : isBlank ch' = false) : (ch != ch') = true :=
    bne_iff_ne.mpr (ne_of_isBlank h notBlank)
  rw [Carries.plainChar, bracketWeight_of_blank h, other '<' rfl, other '>' rfl, other ',' rfl]
  rfl

namespace Token

variable {c : Cursor} {w : Text} {o o' : Opened}

/-- The text `u` is read to its end, and what is open changes from `o` to `o'`. -/
def Reading (c : Cursor) (u : Text) (o o' : Opened) : Prop :=
  ∃ code, Reads c code (c.advance u.length) ∧ Carries code o o'

theorem Reading.append {u v : Text} {o'' : Opened} (h : Reading c u o o')
    (h' : Reading (c.advance u.length) v o' o'') : Reading c (u ++ v) o o'' := by
  obtain ⟨code, reads, carries⟩ := h
  obtain ⟨more, reads', carries'⟩ := h'
  refine ⟨code ++ more, ?_, carries.append carries'⟩
  rw [List.length_append, ← advance_advance]
  exact reads.trans reads'

/-- White space opens nothing. -/
theorem reading_gap {b : Text} (blank : IsGap b) (eq : c.ahead = b ++ w) : Reading c b o o := by
  obtain ⟨code, reads, hchars⟩ := reads_blanks eq blank
  refine ⟨code, reads, .of_plain fun ch mem => ?_⟩
  rw [hchars] at mem
  exact plainChar_of_isBlank (blank ch mem)

theorem reading_word {u : Text} (eq : c.ahead = u ++ w) (word : ∀ ch ∈ u, isWord ch = true ∨ ch = '#')
    (plain : c.PlainWord u) : Reading c u o o := by
  obtain ⟨code, reads, rfl⟩ := reads_word eq word plain
  exact ⟨code, reads, .of_plain fun ch mem => plainChar_of_isWord (word ch mem)⟩

/-- A mark of one character. -/
theorem reading_char {ch : Char} (eq : c.ahead = ch :: w) (noStart : mayStartLexeme ch = false)
    (carries : Carries [(c, ch)] o o') : Reading c [ch] o o' :=
  have none : c.lexeme? = .ok none := lexeme?_eq_none fun ch' first => by
    rw [eq] at first
    cases first
    exact noStart
  ⟨[(c, ch)], .char none (by rw [eq]; rfl) (.here _), carries⟩

theorem reading_arrow (eq : c.ahead = '-' :: '>' :: w) : Reading c ['-', '>'] o o := by
  have next : (c.advance 1).ahead = '>' :: w := by rw [advance_ahead, eq]; rfl
  have before : (c.advance 1).before = some '-' := before_advance (u := []) (w := '>' :: w) eq
  obtain ⟨code, reads, carries⟩ := reading_char (o := o) (w := '>' :: w) eq rfl (.single rfl)
  obtain ⟨code', reads', carries'⟩ := reading_char (o := o) next rfl (.arrowHead before)
  exact ⟨_, reads.onward (u := ['-']) (w := ['>']) reads', carries.append carries'⟩

theorem reading_mark {m : Mark} (eq : c.ahead = m.text ++ w) (apart : (mark m).Apart w) (clear : c.Clear)
    (h : m.track o = some o') : Reading c m.text o o' := by
  cases m with
  | openParen =>
      cases h
      exact reading_char eq rfl (.push rfl)
  | openBracket =>
      cases h
      exact reading_char eq rfl (.push rfl)
  | openBrace =>
      cases h
      exact reading_char eq rfl (.push rfl)
  | closeParen => exact reading_char eq rfl (.pop rfl h)
  | closeBracket => exact reading_char eq rfl (.pop rfl h)
  | closeBrace => exact reading_char eq rfl (.pop rfl h)
  | less =>
      cases h
      exact reading_char eq rfl .less
  | greater =>
      cases h
      exact reading_char eq rfl (.greater (clear.angle (by rw [eq]; rfl)))
  | comma =>
      rw [Mark.track] at h
      split at h
      next => cases h
      next keeps =>
        cases h
        exact reading_char eq rfl (.comma keeps)
  | fatArrow =>
      rw [Mark.track] at h
      split at h
      next => cases h
      next inside =>
        cases h
        have next : (c.advance 1).ahead = '>' :: w := by rw [advance_ahead, eq]; rfl
        obtain ⟨code, reads, carries⟩ := reading_char (o := o) (w := '>' :: w) eq rfl (.inside rfl inside)
        obtain ⟨code', reads', carries'⟩ := reading_char (o := o) next rfl (.inside rfl inside)
        exact ⟨_, reads.onward (u := ['=']) (w := ['>']) reads', carries.append carries'⟩
  | slash =>
      cases h
      have none := lexeme?_slash (c := c) eq apart.1 apart.2
      exact ⟨[(c, '/')], .char none (by rw [eq]; rfl) (.here _), .single rfl⟩
  | colons =>
      cases h
      have next : (c.advance 1).ahead = ':' :: w := by rw [advance_ahead, eq]; rfl
      obtain ⟨code, reads, carries⟩ := reading_char (o := o) (w := ':' :: w) eq rfl (.single rfl)
      obtain ⟨code', reads', carries'⟩ := reading_char (o := o) next rfl (.single rfl)
      exact ⟨_, reads.onward (u := [':']) (w := [':']) reads', carries.append carries'⟩
  | arrow =>
      cases h
      exact reading_arrow eq
  | _ =>
      cases h
      exact reading_char eq rfl (.single rfl)

theorem reading_attribute {a : AttributeSyntax} (eq : c.ahead = a.text ++ w) : Reading c a.text o o := by
  obtain ⟨code, encloses, balanced, close⟩ := AttributeSyntax.encloses eq
  have ahead : c.ahead = '#' :: '[' :: (a.inner ++ ("]" ++ w)) := by
    rw [eq, AttributeSyntax.text]
    simp
  have hash : c.lexeme? = .ok none := lexeme?_eq_none fun ch first => by
    rw [ahead] at first
    cases first
    rfl
  have first : (c.advance 1).ahead.head? = some '[' := by rw [advance_ahead, ahead]; rfl
  have last : (c.advance (a.inner.length + 2)).ahead.head? = some ']' := by rw [close]; rfl
  have ends := Reads.char (lexeme?_of_bracket last (.inr rfl)) last
    (.here ((c.advance (a.inner.length + 2)).advance 1))
  rw [advance_advance] at ends
  have bracket := Reads.char (lexeme?_of_bracket first (.inl rfl)) first (encloses.reads.trans ends)
  have pair : closer? '[' = some ']' := rfl
  have carries : Carries [(c, '#')] o o := .single rfl
  have size : a.inner.length + 2 + 1 = a.text.length := a.length_text.symm
  rw [size] at bracket
  have all := Reads.char hash (by rw [ahead]; rfl) bracket
  exact ⟨_, all, carries.append (.group pair balanced)⟩

theorem reading_number {n : Number} (eq : c.ahead = n.text ++ w) (sealed : w.Sealed) :
    Reading c n.text o o := by
  obtain ⟨code, reads, same⟩ := reads_plain eq (n.lexeme?_none eq sealed)
  refine ⟨code, reads, .of_plain fun ch mem => ?_⟩
  rw [same] at mem
  rcases n.word ch mem with word | rfl
  · exact plainChar_of_isWord (.inl word)
  · rfl

theorem reading_lifetime {l : Lifetime} (eq : c.ahead = '\'' :: l.name ++ w) (sealed : w.Sealed) :
    Reading c ('\'' :: l.name) o o := by
  have next : (c.advance 1).ahead = l.name ++ w := by rw [advance_ahead, eq]; rfl
  obtain ⟨code, reads, carries⟩ := reading_word (o := o) next (fun ch mem => .inl (l.isName.isWord ch mem))
    (plainWord_sealed (.inl l.isName) next sealed)
  refine ⟨code, .lexeme (lexeme?_tick l.isName sealed eq) ?_, carries⟩
  rwa [advance_advance, Nat.add_comm] at reads

theorem reading_literal {l : Literal} (eq : c.ahead = l.text ++ w) (fresh : c.Fresh) : Reading c l.text o o := by
  obtain ⟨code, reads, letters⟩ := Literal.reads eq fresh
  refine ⟨code, reads, .of_plain fun ch mem => ?_⟩
  rw [letters] at mem
  exact plainChar_of_isWord (.inl (l.letters_plain.1 ch mem))

/-- **A token is read to its end.** -/
theorem reading {tok : Token} (eq : c.ahead = tok.text ++ w) (apart : tok.Apart w) (clear : c.Clear)
    (h : tok.track o = some o') : Reading c tok.text o o' := by
  cases tok with
  | name i =>
      cases h
      exact reading_word eq i.isIdentifier.isWord (plainWord_sealed i.isIdentifier eq apart)
  | number n =>
      cases h
      exact reading_number eq apart.1
  | lifetime l =>
      cases h
      exact reading_lifetime eq apart
  | literal l =>
      cases h
      exact reading_literal eq clear.fresh
  | mark m => exact reading_mark eq apart clear h
  | note a =>
      cases h
      cases a with
      | doc d => exact ⟨[], .lexeme (lexeme?_doc eq) (.here _), .nil o⟩
      | bracketed a => exact reading_attribute eq

theorem text_ne_nil (tok : Token) : tok.text ≠ [] := by
  cases tok with
  | name i => exact i.isIdentifier.ne_nil
  | number n =>
      obtain ⟨d, v, digits, _⟩ := n.digit
      rw [text, digits]
      exact List.cons_ne_nil d v
  | literal l => exact l.text_ne_nil
  | mark m => cases m <;> exact List.cons_ne_nil _ _
  | note a => cases a <;> exact List.cons_ne_nil _ _
  | _ => exact List.cons_ne_nil _ _

/-- Nothing is glued to a token that it would belong to. -/
theorem clear {tok : Token} (eq : c.ahead = tok.text ++ w) (apart : tok.Apart w) :
    (c.advance tok.text.length).Clear := by
  cases tok with
  | name i =>
      exact .behindWord eq i.isIdentifier.ne_nil (fun ch mem => (i.isIdentifier.isWord ch mem).imp_right .inl)
        fun ch first => (apart ch first).1
  | number n =>
      exact .behindWord eq (text_ne_nil (.number n)) (fun ch mem => (n.word ch mem).imp_right .inr)
        fun ch first => (apart.1 ch first).1
  | lifetime l =>
      have next : (c.advance 1).ahead = l.name ++ w := by rw [advance_ahead, eq]; rfl
      have clear := Clear.behindWord next l.isName.ne_nil (fun ch mem => .inl (l.isName.isWord ch mem))
        fun ch first => (apart ch first).1
      rwa [advance_advance, Nat.add_comm] at clear
  | literal l =>
      obtain ⟨v, ch, mem, last⟩ := l.exists_last
      have clearing : ∀ ch ∈ ['"', '\'', '#'], isClearing ch = true := by decide
      exact .behind v ch eq last (clearing ch mem)
  | note a =>
      cases a with
      | doc d => exact .behind ("///" ++ d.body) '\n' eq rfl rfl
      | bracketed a => exact .behind ("#[" ++ a.inner) ']' eq rfl rfl
  | mark m =>
      -- the operator is not in front of an angle bracket
      have operator {ch : Char} (eq : c.ahead = [ch] ++ w) (plain : isWord ch = false) (noAngle : w.head? ≠ some '>') :
          (c.advance 1).Clear := by
        refine ⟨fun angle => ?_, .behind (u := []) eq plain⟩
        have behind : (c.advance 1).ahead = w := ahead_advance (u := [ch]) eq
        rw [behind] at angle
        exact absurd angle noAngle
      cases m with
      | colons => exact .behind [':'] ':' eq rfl rfl
      | arrow => exact .behind ['-'] '>' eq rfl rfl
      | fatArrow => exact .behind ['='] '>' eq rfl rfl
      | minus => exact operator eq rfl apart
      | equals => exact operator eq rfl apart
      | _ => exact .behind [] _ eq rfl rfl

end Token

/-- **Tokens are read to their end**, and the brackets that are open behind them are known. -/
theorem Spaced.reads {tail : Text} {ts : List Token} : ∀ {o o' : Opened} {c : Cursor},
    Spaced tail ts c.ahead → c.Clear → o.track ts = some o' →
      ∃ code d, Reads c code d ∧ d.ahead = tail ∧ d.Clear ∧ Carries code o o' := by
  induction ts with
  | nil =>
      intro o o' c h clear track
      cases track
      obtain ⟨b, t', eq, blank, ⟨_, rfl⟩ | ⟨_, _, _, cons, _⟩⟩ := h.exists_gap
      · obtain ⟨code, reads, carries⟩ := Token.reading_gap blank eq
        exact ⟨code, _, reads, ahead_advance eq, clear.gap blank eq, carries⟩
      · cases cons
  | cons tok ts ih =>
      intro o o' c h clear track
      obtain ⟨between, first, later⟩ := Option.bind_eq_some_iff.mp track
      obtain ⟨b, t', eq, blank, ⟨none, _⟩ | ⟨_, _, w, cons, rfl, apart, rest⟩⟩ := h.exists_gap
      · cases none
      · cases cons
        have start := ahead_advance eq
        have clearStart := clear.gap blank eq
        obtain ⟨code, reads, unchanged⟩ := Token.reading_gap (o := o) blank eq
        obtain ⟨code', reads', carries⟩ := Token.reading start apart clearStart first
        have behind := ahead_advance start
        rw [← behind] at rest
        obtain ⟨code'', d, reads'', ahead, clear', carries'⟩ := ih rest
          (Token.clear start apart) later
        exact ⟨code ++ (code' ++ code''), d, reads.trans (reads'.trans reads''), ahead, clear',
          unchanged.append (carries.append carries')⟩

end EnumExtract
