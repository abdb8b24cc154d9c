/-
  EnumExtract.Proofs.Grammar.Leaves
  ────────────────────────────────
  The leaves of a source: what its declarations are made of, bodies included.

  A leaf is a name, a literal, a keyword that begins declarations, a remark, the
  scope of a visibility, or one character of an operator or bracket.  `Printed tail ls t`
  says that the text `t` writes the leaves `ls`, with arbitrary white space
  between them, and that `tail` stands behind them.

  Main results:
    • `Leaf.reading`      a leaf is read to its end,
    • `Printed.reads`     so are leaves one after the other, and the brackets of
                          the text are those of the leaves,
    • `Printed.prelude`   remarks are read as they are written.
-/
import EnumExtract.Proofs.Grammar.Remarks
import EnumExtract.Proofs.Grammar.Scanning
import EnumExtract.Proofs.Grammar.Scopes

namespace EnumExtract

open Cursor

/-! ## §1. Leaves. -/

/-- A bracket, a separator or a character of an operator. -/
def isSymbol (ch : Char) : Bool :=
  !(isWord ch || isBlank ch || ch == '#' || ch == '"' || ch == '\'')

theorem isSymbol_openParen : isSymbol '(' = true := rfl

theorem isSymbol_closeParen : isSymbol ')' = true := rfl

theorem isSymbol_openBrace : isSymbol '\x7b' = true := rfl

theorem isSymbol_closeBrace : isSymbol '\x7d' = true := rfl

theorem isSymbol_semicolon : isSymbol ';' = true := rfl

inductive Leaf where
  | name (i : Identifier)
  | number (n : Number)
  | lifetime (l : Lifetime)
  | literal (l : Literal)
  | keyword (w : Text) (mem : w ∈ reservedWords)
  | symbol (ch : Char) (isSymbol : isSymbol ch = true)
  | remark (r : Remark)
  | scope (s : Text) (whole : scopeLength? s = some s.length)

namespace Leaf

def text : Leaf → Text
  | name i => i.text
  | number n => n.text
  | lifetime l => '\'' :: l.name
  | literal l => l.text
  | keyword w _ => w
  | symbol ch _ => [ch]
  | remark r => r.text
  | scope s _ => s

/-- The leaf is not glued to `w` behind it. -/
def Apart : Leaf → Text → Prop
  | name _, w | number _, w | lifetime _, w | keyword _ _, w => w.Sealed
  | symbol ch _, w => ch = '/' → w.head? ≠ some '/' ∧ w.head? ≠ some '*'
  | remark r, w => r.Apart w
  | literal _, _ | scope .., _ => True

theorem apart_symbol {ch : Char} (isSymbol : isSymbol ch = true) (other : ch ≠ '/') (w : Text) :
    (symbol ch isSymbol).Apart w :=
  fun slash => absurd slash other

/-- The brackets of the leaf that are not closed in it. -/
def brackets : Leaf → List Char
  | symbol ch _ => [ch]
  | _ => []

end Leaf

/-- The text writes the leaves, and `tail` stands behind them. -/
inductive Printed (tail : Text) : List Leaf → Text → Prop where
  | nil {gap : Text} (blank : IsGap gap) : Printed tail [] (gap ++ tail)
  | cons {gap w : Text} {l : Leaf} {ls : List Leaf} (blank : IsGap gap) (apart : l.Apart w)
      (rest : Printed tail ls w) : Printed tail (l :: ls) (gap ++ (l.text ++ w))

namespace Printed

variable {tail t : Text} {ls ms : List Leaf}

theorem gap {gap : Text} (blank : IsGap gap) (h : Printed tail ls t) : Printed tail ls (gap ++ t) := by
  cases h with
  | nil b =>
      rw [← List.append_assoc]
      exact .nil (blank.append b)
  | cons b apart rest =>
      rw [← List.append_assoc]
      exact .cons (blank.append b) apart rest

theorem split (h : Printed tail (ls ++ ms) t) : ∃ mid, Printed mid ls t ∧ Printed tail ms mid := by
  induction ls generalizing t with
  | nil => exact ⟨t, .nil IsGap.nil, h⟩
  | cons l ls ih =>
      cases h with
      | cons blank apart rest =>
          obtain ⟨mid, left, right⟩ := ih rest
          exact ⟨mid, .cons blank apart left, right⟩

/-- White space in front of what stands behind the leaves may count as theirs. -/
theorem of_gap {gap : Text} (blank : IsGap gap) (h : Printed (gap ++ tail) ls t) : Printed tail ls t := by
  induction h with
  | nil blank' =>
      rw [← List.append_assoc]
      exact .nil (blank'.append blank)
  | cons blank' apart rest ih => exact .cons blank' apart ih

end Printed

/-! ## §2. Reading leaves. -/

theorem isSymbol_plain {ch : Char} (h : isSymbol ch = true) :
    isWord ch = false ∧ isBlank ch = false ∧ ch ≠ '#' ∧ ch ≠ '"' ∧ ch ≠ '\'' := by
  simpa [isSymbol, and_assoc] using h

theorem exists_inner_of_scope {s : Text} (whole : scopeLength? s = some s.length) :
    ∃ inner, s = '(' :: inner ++ [')'] ∧ ∀ ch ∈ inner, inScope ch = true := by
  obtain ⟨inner, rest, shape, size, inside⟩ := scopeLength?_some whole
  have none : rest = [] := by
    have length := congrArg List.length shape
    rw [List.length_append, List.length_cons, List.length_cons, size] at length
    exact List.eq_nil_of_length_eq_zero (by omega)
  exact ⟨inner, by rw [shape, none], inside⟩

/-- A scope is measured whatever stands behind it. -/
theorem scopeLength?_append {s : Text} (whole : scopeLength? s = some s.length) (w : Text) :
    scopeLength? (s ++ w) = some s.length := by
  obtain ⟨inner, shape, _⟩ := exists_inner_of_scope whole
  rw [← whole, shape, List.append_assoc]
  exact scopeLength?_congr inner w [] rfl

namespace Leaf

variable {c : Cursor} {l : Leaf} {u v w : Text}

/-- What is read with no bracket left open. -/
theorem readsTree_of_reading (h : Token.Reading c u .start .start)
    (fresh : (c.advance u.length).Fresh) : c.ReadsTree u := by
  obtain ⟨code, reads, carries⟩ := h
  exact ⟨⟨code, reads, nest_balanced carries.nests⟩, fresh⟩

theorem fresh_of_sealed (eq : c.ahead = u ++ w) (sealed : w.Sealed) : (c.advance u.length).Fresh :=
  .of_stop fun ch first => (sealed ch (by rw [← first, ahead_advance eq])).1

/-- A leaf with no open brackets is read as a tree. -/
theorem readsTree (eq : c.ahead = l.text ++ w) (apart : l.Apart w) (fresh : c.Fresh)
    (plain : ∀ ch h, l ≠ .symbol ch h) : c.ReadsTree l.text := by
  cases l with
  | name i =>
      exact readsTree_of_reading (Token.reading_word eq (IsIdentifier.isWord i.isIdentifier)
        (plainWord_sealed i.isIdentifier eq apart)) (fresh_of_sealed eq apart)
  | number n => exact readsTree_of_reading (Token.reading_number eq apart) (fresh_of_sealed eq apart)
  | lifetime l => exact .lifetime eq l.isName apart
  | literal l => exact l.readsTree eq fresh
  | keyword k mem =>
      have isName := isName_of_reserved mem
      exact .word eq isName.isWord (fun ch first => (apart ch first).1) fun _ => apart.noRaw
  | symbol ch h => exact absurd rfl (plain ch h)
  | remark r =>
      cases r with
      | doc d =>
          have eq' : c.ahead = ("///" ++ d.body : Text) ++ '\n' :: w := by
            rw [eq, text, Remark.text, DocComment.text]
            simp
          have whole := lexeme?_doc (d := d) eq
          rw [DocComment.text, List.length_append] at whole
          exact .lexeme eq' whole rfl
      | bracketed a =>
          obtain ⟨inner, shape⟩ := a.exists_text
          have cut : c.ahead = ('#' :: '[' :: inner) ++ ']' :: w := by
            rw [eq, text, Remark.text, shape]
            simp
          have fresh : (c.advance a.text.length).Fresh := by
            have size : a.text.length = ('#' :: '[' :: inner).length + 1 := by rw [shape]; simp
            rw [size]
            exact .behind cut rfl
          exact readsTree_of_reading (ReadAttribute.reading eq apart) fresh
  | scope s whole =>
      have measured : scopeLength? c.ahead = some s.length := by
        rw [eq]
        exact scopeLength?_append whole w
      obtain ⟨close, code, encloses, stop, _⟩ := exists_encloses_scope measured
      obtain ⟨opener, closer, pair, reads⟩ := encloses.reads_whole
      obtain ⟨inner, shape, _⟩ := exists_inner_of_scope whole
      have fresh : (c.advance s.length).Fresh := by
        have size : s.length = ('(' :: inner).length + 1 := by rw [shape]; simp
        have cut : c.ahead = ('(' :: inner) ++ ')' :: w := by
          rw [eq, text, shape]
          simp
        rw [size]
        exact .behind cut rfl
      rw [stop] at reads
      exact readsTree_of_reading ⟨_, reads, .group pair (nest_balanced encloses.nests)⟩ fresh

theorem lexeme?_symbol {ch : Char} {h : isSymbol ch = true} (eq : c.ahead = (symbol ch h).text ++ w)
    (apart : (symbol ch h).Apart w) : c.lexeme? = .ok none := by
  obtain ⟨word, _, _, quote, tick⟩ := isSymbol_plain h
  by_cases slash : ch = '/'
  · subst slash
    obtain ⟨line, block⟩ := apart rfl
    exact lexeme?_slash eq line block
  · refine lexeme?_eq_none fun x first => ?_
    rw [eq] at first
    cases first
    have noR : ch ≠ 'r' := fun same => by rw [same] at word; cases word
    have noB : ch ≠ 'b' := fun same => by rw [same] at word; cases word
    simp [mayStartLexeme, slash, quote, tick, noR, noB]

/-- **A leaf is read to its end.** -/
theorem reading (eq : c.ahead = l.text ++ w) (apart : l.Apart w) (fresh : c.Fresh) :
    (∃ code, Reads c code (c.advance l.text.length)
        ∧ ∀ closers, nest closers (chars code) = nest closers l.brackets)
      ∧ (c.advance l.text.length).Fresh := by
  by_cases isSymbol : ∃ ch h, l = .symbol ch h
  · obtain ⟨ch, h, rfl⟩ := isSymbol
    exact ⟨⟨[(c, ch)], .char (lexeme?_symbol eq apart) (by rw [eq]; rfl) (.here _), fun _ => rfl⟩,
      .behind (u := []) eq (isSymbol_plain h).1⟩
  · push Not at isSymbol
    obtain ⟨⟨code, reads, balanced⟩, fresh⟩ := readsTree eq apart fresh isSymbol
    refine ⟨⟨code, reads, fun closers => ?_⟩, fresh⟩
    have none : l.brackets = [] := by
      cases l with
      | symbol ch h => exact absurd rfl (isSymbol ch h)
      | _ => rfl
    rw [balanced, none]
    rfl

end Leaf

/-- **Leaves are read to their end**, and the brackets of the text are those of the leaves. -/
theorem Printed.reads {tail : Text} {ls : List Leaf} : ∀ {c : Cursor}, Printed tail ls c.ahead → c.Fresh →
    ∃ code d, Reads c code d ∧ d.ahead = tail
      ∧ ∀ closers, nest closers (chars code) = nest closers (ls.flatMap Leaf.brackets) := by
  have blanks {b w : Text} {c : Cursor} (blank : IsGap b) (eq : c.ahead = b ++ w) :
      ∃ code, Reads c code (c.advance b.length) ∧ Balanced code := by
    obtain ⟨code, reads, hchars⟩ := reads_blanks eq blank
    refine ⟨code, reads, .of_plain fun ch mem => ?_⟩
    rw [hchars] at mem
    exact bracketWeight_of_blank (blank ch mem)
  induction ls with
  | nil =>
      intro c h _
      generalize eq : c.ahead = t at h
      cases h with
      | nil blank =>
          obtain ⟨code, reads, balanced⟩ := blanks blank eq
          exact ⟨code, _, reads, ahead_advance eq, fun closers => balanced closers⟩
  | cons l ls ih =>
      intro c h fresh
      generalize eq : c.ahead = t at h
      cases h with
      | @cons b w _ _ blank apart rest =>
          obtain ⟨code, reads, balanced⟩ := blanks blank eq
          have ahead := ahead_advance eq
          obtain ⟨⟨more, reads', same⟩, fresh'⟩ := Leaf.reading ahead apart (fresh.gap blank eq)
          rw [← ahead_advance ahead] at rest
          obtain ⟨others, d, reads'', stop, same'⟩ := ih rest fresh'
          refine ⟨_, d, reads.trans (reads'.trans reads''), stop, fun closers => ?_⟩
          rw [chars_append, chars_append, nest_append_eq, balanced, Option.bind_some, nest_append_eq, same,
            List.flatMap_cons, nest_append_eq]
          congr 1
          exact funext same'

/-! ## §3. The place of a leaf. -/

theorem Cursor.LeadsTo.ne_nil {c d : Cursor} (h : c.LeadsTo d) (more : d.ahead ≠ []) : c.ahead ≠ [] := by
  intro none
  have ends := h.end_eq
  have le := h.offset_le
  have pos := List.length_pos_of_ne_nil more
  rw [none, List.length_nil] at ends
  omega

def Leaf.isRemark : Leaf → Bool
  | remark _ => true
  | _ => false

theorem Leaf.still {l : Leaf} {w : Text} (plain : l.isRemark = false) (apart : l.Apart w) :
    Text.Still (l.text ++ w) := by
  cases l with
  | name i => exact (Token.still rfl apart : Text.Still ((Token.name i).text ++ w))
  | number n =>
      obtain ⟨d, v, eq, digit⟩ := n.digit
      rw [text, eq]
      exact (Text.Firm.of_isWord (isWord_of_isDigit digit)).still
  | lifetime l => exact (Token.still rfl apart : Text.Still ((Token.lifetime l).text ++ w))
  | literal l => exact (l.firm w).still
  | keyword k mem => exact ((isName_of_reserved mem).firm w).still
  | symbol ch h =>
      obtain ⟨_, blank, hash, _⟩ := isSymbol_plain h
      rintro _ _ ⟨⟩
      exact ⟨blank, hash, apart⟩
  | remark r => cases plain
  | scope s whole =>
      obtain ⟨inner, rfl, _⟩ := exists_inner_of_scope whole
      refine Text.Firm.still ?_
      rintro _ ⟨⟩
      decide

/-- The leaf stands at `d`, with `w` behind it. -/
structure Cursor.Stands (tail : Text) (l : Leaf) (ls : List Leaf) (d : Cursor) (w : Text) : Prop where
  ahead : d.ahead = l.text ++ w
  apart : l.Apart w
  rest : Printed tail ls w
  fresh : d.Fresh

section Places

variable {tail w : Text} {l : Leaf} {ls : List Leaf} {c d : Cursor}

/-- Only white space stands before the first leaf. -/
theorem Printed.toFirst (h : Printed tail (l :: ls) c.ahead) (fresh : c.Fresh) :
    ∃ b d w, c.ahead = b ++ d.ahead ∧ IsGap b ∧ d = c.advance b.length ∧ Stands tail l ls d w := by
  generalize eq : c.ahead = t at h
  cases h with
  | @cons b w _ _ blank apart rest =>
      have ahead := ahead_advance eq
      exact ⟨b, _, w, by rw [ahead], blank, rfl, ahead, apart, rest, fresh.gap blank eq⟩

/-- What skips trivia comes to the first leaf that is no remark. -/
theorem Printed.trivia (h : Printed tail (l :: ls) c.ahead) (fresh : c.Fresh) (plain : l.isRemark = false) :
    ∃ d w, (∀ keepDocs, Trivia keepDocs c d) ∧ Stands tail l ls d w := by
  obtain ⟨b, d, w, eq, blank, rfl, stands⟩ := h.toFirst fresh
  have still := Leaf.still plain stands.apart
  rw [← stands.ahead] at still
  exact ⟨_, w, fun keepDocs => .blanks eq blank (.stop still.trivium?), stands⟩

namespace Cursor.Stands

variable (h : Stands tail l ls d w)

include h

theorem printed : Printed tail (l :: ls) d.ahead := by
  rw [h.ahead]
  exact .cons IsGap.nil h.apart h.rest

/-- The place behind the leaf. -/
theorem behind : Printed tail ls (d.advance l.text.length).ahead ∧ (d.advance l.text.length).Fresh := by
  rw [ahead_advance h.ahead]
  exact ⟨h.rest, (Leaf.reading h.ahead h.apart h.fresh).2⟩

theorem leadsTo : d.LeadsTo (d.advance l.text.length) :=
  leadsTo_advance (by
    rw [h.ahead, List.length_append]
    exact Nat.le_add_right _ _)

theorem still (plain : l.isRemark = false) : d.ahead.Still := by
  rw [h.ahead]
  exact Leaf.still plain h.apart

end Cursor.Stands

end Places

/-! ## §4. Remarks are read as a prelude. -/

namespace Remark

/-- The attribute is what the remark is read as, somewhere behind `c`. -/
def ReadAs (c : Cursor) (r : Remark) (attr : Attribute) : Prop :=
  ∃ p w, c.LeadsTo p ∧ p.ahead = r.text ++ w ∧ attr = r.placed p.offset

theorem ReadAs.of_leadsTo {c d : Cursor} {r : Remark} {attr : Attribute} (h : r.ReadAs d attr)
    (onward : c.LeadsTo d) : r.ReadAs c attr := by
  obtain ⟨p, w, leads, eq, rfl⟩ := h
  exact ⟨p, w, onward.trans leads, eq, rfl⟩

/-- One remark in front of a prelude. -/
theorem prelude {r : Remark} {p head : Cursor} {w : Text} {attrs : List Attribute}
    (eq : p.ahead = r.text ++ w) (apart : r.Apart w) (rest : Prelude (p.advance r.text.length) attrs head) :
    Prelude p (r.placed p.offset :: attrs) head := by
  cases r with
  | doc d => exact d.prelude eq rest
  | bracketed a =>
      obtain ⟨inner, text⟩ := a.exists_text
      have first : p.ahead.head? = some '#' := by
        rw [eq, Remark.text, text]
        rfl
      have noDoc : startsDocComment p.ahead = false := startsDocComment_of_first (by rw [first]; decide)
      refine .bracketed (trivium?_of_first first rfl (by decide)) noDoc (ReadAttribute.sees eq)
        (ReadAttribute.read_again eq apart) ?_
      have size := a.length_text
      have length : (a.attr.at p.offset).stop - (a.attr.at p.offset).start = a.text.length := by
        show p.offset + (a.attr.stop - a.attr.start) - p.offset = a.text.length
        omega
      show Prelude (p.advance ((a.attr.at p.offset).stop - (a.attr.at p.offset).start)) attrs head
      rw [length]
      exact rest

end Remark

/-- **Remarks are read as they are written.** -/
theorem Printed.prelude {tail : Text} {l : Leaf} {ls : List Leaf} (plain : l.isRemark = false) :
    ∀ {rs : List Remark} {c : Cursor}, Printed tail (rs.map .remark ++ l :: ls) c.ahead → c.Fresh →
      ∃ attrs head w, Prelude c attrs head ∧ List.Forall₂ (Remark.ReadAs c) rs attrs
        ∧ Stands tail l ls head w := by
  intro rs
  induction rs with
  | nil =>
      intro c h fresh
      obtain ⟨b, d, w, eq, blank, rfl, stands⟩ := h.toFirst fresh
      have still := stands.still plain
      exact ⟨[], _, w, .blanks eq blank (.stop still.trivium? still.noDoc still.noAttribute), .nil, stands⟩
  | cons r rs ih =>
      intro c h fresh
      obtain ⟨b, p, w, eq, blank, rfl, stands⟩ := h.toFirst fresh
      obtain ⟨rest, fresh'⟩ := stands.behind
      obtain ⟨attrs, head, v, prelude, read, place⟩ := ih rest fresh'
      have toStart : c.LeadsTo (c.advance b.length) := leadsTo_advance (by
        rw [eq, List.length_append]
        omega)
      refine ⟨_, head, v, .blanks eq blank (r.prelude stands.ahead stands.apart prelude),
        .cons ⟨_, w, toStart, stands.ahead, rfl⟩ ?_, place⟩
      exact read.imp fun _ _ h => h.of_leadsTo (toStart.trans stands.leadsTo)

end EnumExtract
