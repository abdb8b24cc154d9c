/-
  EnumExtract.Proofs.Grammar.Spelling
  ────────────────────────────────
  What the readers find where tokens are written.

  The place of a token is a place where no trivia stands: a reader that skips
  trivia comes to it and stops.  Notes are read as a prelude, and the
  text between two places spells the tokens between them.

  Main results:
    • `Spaced.prelude`           notes are read as they are written,
    • `Spaced.withoutComments`   tokens without notes hold no comment,
    • `Spaced.tokenize`          and their text has their parts as its tokens,
    • `At.label?_name`, `At.label?_none`   which tokens begin with a label.
-/
import EnumExtract.Proofs.Comments
import EnumExtract.Proofs.Grammar.Types
import EnumExtract.Proofs.Tokens

namespace EnumExtract

open Cursor

/-! ## §1. The place of a token. -/

/-- The text begins with no trivia and no note. -/
def Text.Firm (w : Text) : Prop :=
  ∀ ch, w.head? = some ch → EnumExtract.isBlank ch = false ∧ ch ≠ '/' ∧ ch ≠ '#'

theorem IsIdentifier.exists_first {w : Text} (h : IsIdentifier w) :
    ∃ ch v, w = ch :: v ∧ isNameStart ch = true := by
  rcases h with ⟨ch, v, rfl, start, _⟩ | ⟨n, _, rfl⟩
  · exact ⟨ch, v, rfl, start⟩
  · exact ⟨'r', '#' :: n, rfl, rfl⟩

theorem Text.Firm.of_isWord {ch : Char} {w : Text} (word : isWord ch = true) : Text.Firm (ch :: w) := by
  rintro _ ⟨⟩
  refine ⟨not_isBlank_of_isWord word, ?_, ?_⟩ <;> rintro rfl <;> cases word

theorem IsName.firm {n : Text} (h : IsName n) (w : Text) : Text.Firm (n ++ w) := by
  obtain ⟨ch, v, rfl, start, _⟩ := h
  exact .of_isWord (isWord_of_isNameStart start)

theorem startsDocComment_of_first {t : Text} (h : t.head? ≠ some '/') : startsDocComment t = false := by
  by_contra doc
  rw [Bool.not_eq_false] at doc
  rcases exists_of_startsDocComment doc with ⟨rest, rfl⟩ | ⟨rest, rfl⟩
  all_goals exact h rfl

theorem sees_hash_of_first {c : Cursor} (h : c.ahead.head? ≠ some '#') : c.sees "#[" = false := by
  by_contra sees
  rw [Bool.not_eq_false] at sees
  obtain ⟨rest, eq⟩ := sees_iff.mp sees
  exact h (by rw [eq]; rfl)

/-- The text begins with no trivia and no note, but perhaps with a slash. -/
def Text.Still (w : Text) : Prop :=
  ∀ ch v, w = ch :: v →
    EnumExtract.isBlank ch = false ∧ ch ≠ '#' ∧ (ch = '/' → v.head? ≠ some '/' ∧ v.head? ≠ some '*')

theorem Text.Firm.still {w : Text} (h : w.Firm) : w.Still := by
  rintro ch v rfl
  obtain ⟨blank, slash, hash⟩ := h ch rfl
  exact ⟨blank, hash, fun same => absurd same slash⟩

theorem Literal.firm (l : Literal) (w : Text) : Text.Firm (l.text ++ w) := by
  obtain ⟨ch, mem, v, shape, _⟩ := l.exists_first
  have firm : ∀ ch ∈ literalStarts, EnumExtract.isBlank ch = false ∧ ch ≠ '/' ∧ ch ≠ '#' := by decide
  rw [shape]
  rintro _ ⟨⟩
  exact firm ch mem

theorem Token.still {tok : Token} {w : Text} (plain : tok.isNote = false) (apart : tok.Apart w) :
    Text.Still (tok.text ++ w) := by
  cases tok with
  | name i =>
      obtain ⟨ch, v, eq, start⟩ := i.isIdentifier.exists_first
      rw [text, eq]
      exact (Text.Firm.of_isWord (isWord_of_isNameStart start)).still
  | number n =>
      obtain ⟨d, v, eq, digit⟩ := n.digit
      have word : isWord d = true := isWord_of_isDigit digit
      rw [text, eq]
      exact (Text.Firm.of_isWord word).still
  | lifetime l =>
      refine Text.Firm.still ?_
      rintro _ ⟨⟩
      decide
  | literal l => exact (l.firm w).still
  | mark m =>
      cases m with
      | slash =>
          rintro _ _ ⟨⟩
          exact ⟨rfl, by decide, fun _ => apart⟩
      | _ =>
          refine Text.Firm.still ?_
          rintro _ ⟨⟩
          decide
  | note a => cases plain

namespace Text.Still

variable {c : Cursor} {keepDocs : Bool}

theorem notBlank {w : Text} {ch : Char} (h : w.Still) (first : w.head? = some ch) :
    EnumExtract.isBlank ch = false := by
  obtain ⟨v, rfl⟩ := List.head?_eq_some_iff.mp first
  exact (h ch v rfl).1

theorem noDoc (h : c.ahead.Still) : startsDocComment c.ahead = false := by
  by_contra doc
  rw [Bool.not_eq_false] at doc
  rcases exists_of_startsDocComment doc with ⟨rest, eq⟩ | ⟨rest, eq⟩
  · exact ((h _ _ eq).2.2 rfl).1 rfl
  · exact ((h _ _ eq).2.2 rfl).2 rfl

theorem noAttribute (h : c.ahead.Still) : c.sees "#[" = false := by
  refine sees_hash_of_first fun first => ?_
  obtain ⟨v, eq⟩ := List.head?_eq_some_iff.mp first
  exact (h _ _ eq).2.1 rfl

theorem trivium? (h : c.ahead.Still) : c.trivium? keepDocs = .ok none := by
  cases eq : c.ahead with
  | nil => exact trivium?_of_end eq
  | cons ch w =>
      obtain ⟨blank, _, slash⟩ := h ch w eq
      have comment : c.comment? = .ok none := by
        refine comment?_eq_none (fun rest same => ?_) fun rest same => ?_
        all_goals
          rw [eq] at same
          obtain ⟨rfl, rfl⟩ := List.cons.inj same
        · exact (slash rfl).1 rfl
        · exact (slash rfl).2 rfl
      rw [Cursor.trivium?, eq]
      simp [blank, comment, h.noDoc, ← eq]

end Text.Still

/-- No note comes first. -/
def Token.Begins (tail : Text) : List Token → Prop
  | [] => tail.Still
  | tok :: _ => tok.isNote = false

/-- The place where the first of the tokens is written. -/
structure Cursor.At (tail : Text) (ts : List Token) (d : Cursor) : Prop where
  spaced : Spaced tail ts d.ahead
  still : d.ahead.Still
  clear : d.Clear

section Places

variable {tail : Text} {ts : List Token} {tok : Token} {c d : Cursor}

/-- Only white space stands before the first token. -/
theorem Spaced.toFirst (h : Spaced tail ts c.ahead) (clear : c.Clear) (begins : Token.Begins tail ts) :
    ∃ b d, c.ahead = b ++ d.ahead ∧ IsGap b ∧ d = c.advance b.length ∧ At tail ts d := by
  obtain ⟨b, t', eq, blank, ⟨rfl, rfl⟩ | ⟨tok, us, w, rfl, rfl, apart, rest⟩⟩ := h.exists_gap
  · have ahead := ahead_advance eq
    refine ⟨b, _, by rw [ahead]; exact eq, blank, rfl, ?_, by rw [ahead]; exact begins, clear.gap blank eq⟩
    rw [ahead]
    exact .nil IsGap.nil
  · have ahead := ahead_advance eq
    refine ⟨b, _, by rw [ahead]; exact eq, blank, rfl, ?_, ?_, clear.gap blank eq⟩
    · rw [ahead]
      exact .cons IsGap.nil apart rest
    · rw [ahead]
      exact Token.still begins apart

/-- What skips trivia comes to the first token. -/
theorem Spaced.trivia (h : Spaced tail ts c.ahead) (clear : c.Clear) (begins : Token.Begins tail ts) :
    ∃ d, (∀ keepDocs, Trivia keepDocs c d) ∧ At tail ts d := by
  obtain ⟨b, d, eq, blank, rfl, at'⟩ := h.toFirst clear begins
  exact ⟨_, fun keepDocs => .blanks eq blank (.stop at'.still.trivium?), at'⟩

namespace Cursor.At

theorem first (h : At tail (tok :: ts) d) :
    ∃ w, d.ahead = tok.text ++ w ∧ tok.Apart w ∧ Spaced tail ts w := by
  obtain ⟨b, t', eq, blank, ⟨⟨⟩, _⟩ | ⟨_, _, w, ⟨⟩, rfl, apart, rest⟩⟩ := h.spaced.exists_gap
  cases b with
  | nil => exact ⟨w, eq, apart, rest⟩
  | cons ch b =>
      have notBlank := h.still.notBlank (by rw [eq]; rfl)
      rw [blank ch List.mem_cons_self] at notBlank
      cases notBlank

theorem ahead (h : At tail [] d) : d.ahead = tail := by
  obtain ⟨b, t', eq, blank, ⟨_, rfl⟩ | ⟨_, _, _, ⟨⟩, _⟩⟩ := h.spaced.exists_gap
  cases b with
  | nil => exact eq
  | cons ch b =>
      have notBlank := h.still.notBlank (by rw [eq]; rfl)
      rw [blank ch List.mem_cons_self] at notBlank
      cases notBlank

/-- The place behind the first token. -/
theorem behind (h : At tail (tok :: ts) d) :
    Spaced tail ts (d.advance tok.text.length).ahead ∧ (d.advance tok.text.length).Clear := by
  obtain ⟨w, eq, apart, rest⟩ := h.first
  exact ⟨by rwa [ahead_advance eq], Token.clear eq apart⟩

end Cursor.At

end Places

/-! ## §2. Notes are read as a prelude. -/

theorem Text.trimEnd_append {u b : Text} (blank : IsGap b) : Text.trimEnd (u ++ b) = u.trimEnd := by
  rw [trimEnd, trimEnd, List.reverse_append, List.dropWhile_append_of_pos]
  exact fun ch mem => blank ch (List.mem_reverse.mp mem)

namespace DocComment

variable (d : DocComment)

theorem exists_text : ∃ b, d.text = d.shown ++ b ∧ IsGap b := by
  obtain ⟨b, eq, blank⟩ := Text.exists_trimEnd_append ("///" ++ d.body : Text)
  refine ⟨b ++ ['\n'], ?_, IsGap.append blank (by simp [IsGap, isBlank])⟩
  rw [shown, ← List.append_assoc, ← eq]
  rfl

theorem startsDocComment (w : Text) : EnumExtract.startsDocComment (d.text ++ w) = true := by
  have fourth : Text.startsWith (d.text ++ w) "////" = false := by
    have eq : d.text ++ w = '/' :: '/' :: '/' :: (d.body ++ ('\n' :: w)) := by simp [text]
    rw [eq]
    have first := d.doc
    cases body : d.body with
    | nil => rfl
    | cons ch v =>
        rw [body] at first
        have other : ch ≠ '/' := fun same => first (by rw [same]; rfl)
        simp [Text.startsWith, List.isPrefixOf, Ne.symm other]
  have third : Text.startsWith (d.text ++ w) "///" = true := rfl
  rw [EnumExtract.startsDocComment, if_pos third, fourth]
  rfl

variable {d} {p : Cursor} {w : Text}

theorem read (eq : p.ahead = d.text ++ w) :
    DocAt p ⟨"doc", d.shown, p.offset, p.offset + d.shown.length, none⟩ := by
  have trimmed : Text.trimEnd (p.ahead.take d.text.length) = d.shown := by
    have feed : IsGap ['\n'] := by simp [IsGap, isBlank]
    rw [eq, List.take_left]
    exact Text.trimEnd_append feed
  refine ⟨by rw [eq]; exact d.startsDocComment w, ?_⟩
  rw [readDocComment, lexeme?_doc eq]
  show Except.ok (Attribute.mk "doc" (Text.trimEnd (p.ahead.take d.text.length)) p.offset
    (p.offset + (Text.trimEnd (p.ahead.take d.text.length)).length) none) = _
  rw [trimmed]

end DocComment

theorem Cursor.Prelude.blanks {rest : Text} {attrs : List Attribute} {head : Cursor} :
    ∀ {b : Text} {c : Cursor}, c.ahead = b ++ rest → IsGap b →
      Prelude (c.advance b.length) attrs head → Prelude c attrs head := by
  intro b
  induction b with
  | nil =>
      intro c _ _ h
      rwa [List.length_nil, advance_zero] at h
  | cons ch b ih =>
      intro c eq blank h
      have first : c.ahead.head? = some ch := by rw [eq]; rfl
      refine .trivia (trivium?_of_blank first (blank ch List.mem_cons_self)) ?_
      refine ih (by rw [advance_ahead, eq]; rfl) (fun ch mem => blank ch (List.mem_cons_of_mem _ mem)) ?_
      rwa [advance_advance, Nat.add_comm]

/-- The attribute is what the note is read as, somewhere behind `c`. -/
def Note.ReadAs (c : Cursor) (a : Note) (attr : Attribute) : Prop :=
  ∃ p w, c.LeadsTo p ∧ p.ahead = a.text ++ w ∧ attr = a.placed p.offset

theorem Note.ReadAs.of_leadsTo {c d : Cursor} {a : Note} {attr : Attribute}
    (h : a.ReadAs d attr) (onward : c.LeadsTo d) : a.ReadAs c attr := by
  obtain ⟨p, w, leads, eq, rfl⟩ := h
  exact ⟨p, w, onward.trans leads, eq, rfl⟩

/-- One doc comment in front of a prelude. -/
theorem DocComment.prelude {d : DocComment} {p head : Cursor} {w : Text} {attrs : List Attribute}
    (eq : p.ahead = d.text ++ w) (rest : Prelude (p.advance d.text.length) attrs head) :
    Prelude p (⟨"doc", d.shown, p.offset, p.offset + d.shown.length, none⟩ :: attrs) head := by
  have doc := d.read eq
  have first : p.ahead.head? = some '/' := by rw [eq]; rfl
  have trivium : p.trivium? true = .ok none := by
    unfold Cursor.trivium?
    split
    next => rfl
    next ch rest cut =>
      rw [cut] at first
      cases first
      rw [if_neg (by decide), doc.starts]
      rfl
  refine .doc trivium doc ?_
  obtain ⟨b, text, blank⟩ := d.exists_text
  show Prelude (p.advance (p.offset + d.shown.length - p.offset)) attrs head
  rw [Nat.add_sub_cancel_left]
  rw [text, List.append_assoc] at eq
  refine .blanks (ahead_advance eq) blank ?_
  rw [advance_advance, ← List.length_append, ← text]
  exact rest

/-- One note in front of a prelude. -/
theorem Note.prelude {a : Note} {p head : Cursor} {w : Text} {attrs : List Attribute}
    (eq : p.ahead = a.text ++ w) (rest : Prelude (p.advance a.text.length) attrs head) :
    Prelude p (a.placed p.offset :: attrs) head := by
  cases a with
  | doc d => exact d.prelude eq rest
  | bracketed a =>
      have first : p.ahead.head? = some '#' := by rw [eq]; rfl
      have noDoc : startsDocComment p.ahead = false := by
        rw [eq]
        rfl
      have sees : p.sees "#[" = true := sees_iff.mpr ⟨a.inner ++ "]" ++ w, by
        rw [eq, Note.text, AttributeSyntax.text]
        simp⟩
      refine .bracketed (trivium?_of_first first rfl (by decide)) noDoc sees (AttributeSyntax.read eq) ?_
      show Prelude (p.advance (p.offset + a.text.length - p.offset)) attrs head
      rw [Nat.add_sub_cancel_left]
      exact rest

/-- **Notes are read as they are written.** -/
theorem Spaced.prelude {tail : Text} {ts : List Token} : ∀ {as : List Note} {c : Cursor},
    Spaced tail (as.map .note ++ ts) c.ahead → c.Clear → Token.Begins tail ts →
      ∃ attrs head, Prelude c attrs head ∧ List.Forall₂ (Note.ReadAs c) as attrs
        ∧ At tail ts head := by
  intro as
  induction as with
  | nil =>
      intro c h clear begins
      obtain ⟨b, d, eq, blank, rfl, at'⟩ := h.toFirst clear begins
      exact ⟨[], _, .blanks eq blank (.stop at'.still.trivium? at'.still.noDoc at'.still.noAttribute),
        .nil, at'⟩
  | cons a as ih =>
      intro c h clear begins
      obtain ⟨b, t', eq, blank, ⟨⟨⟩, _⟩ | ⟨_, _, w, ⟨⟩, rfl, apart, rest⟩⟩ := h.exists_gap
      have start := ahead_advance eq
      have behind := ahead_advance start
      rw [← behind] at rest
      obtain ⟨attrs, head, prelude, read, at'⟩ := ih rest (Token.clear start apart) begins
      have toStart : c.LeadsTo (c.advance b.length) := leadsTo_advance (by
        rw [eq, List.length_append]
        omega)
      have onward : c.LeadsTo ((c.advance b.length).advance a.text.length) :=
        toStart.trans (leadsTo_advance (by
          rw [start, List.length_append]
          exact Nat.le_add_right _ _))
      refine ⟨_, head, .blanks eq blank (a.prelude start prelude), .cons ⟨_, w, toStart, start, rfl⟩ ?_, at'⟩
      exact read.imp fun _ _ h => h.of_leadsTo onward

/-! ## §3. The text between two places. -/

theorem Token.Apart.of_append {tok : Token} {w tail : Text} (h : tok.Apart (w ++ tail)) : tok.Apart w := by
  have first (ch : Char) (h : w.head? = some ch) : (w ++ tail).head? = some ch := by
    obtain ⟨v, rfl⟩ := List.head?_eq_some_iff.mp h
    rfl
  have sealed (h : Text.Sealed (w ++ tail)) : w.Sealed := fun ch h' => h ch (first ch h')
  cases tok with
  | name | lifetime => exact sealed h
  | literal => exact fun ch h' => h ch (first ch h')
  | number => exact ⟨sealed h.1, fun dot => h.2 (first '.' dot)⟩
  | note => trivial
  | mark m =>
      cases m with
      | colon => exact fun colon => h (first ':' colon)
      | slash => exact ⟨fun line => h.1 (first '/' line), fun block => h.2 (first '*' block)⟩
      | minus | equals => exact fun angle => h (first '>' angle)
      | _ => trivial

section Stretch

variable {tail : Text} {ts : List Token} {c d : Cursor} {code : List (Cursor × Char)}

/-- The text of the tokens alone. -/
theorem Spaced.exists_text {t : Text} (h : Spaced tail ts t) : ∃ u, t = u ++ tail ∧ Spaced [] ts u := by
  induction h with
  | @nil gap blank => exact ⟨gap, rfl, by
      rw [← List.append_nil gap]
      exact .nil blank⟩
  | @cons gap w tok ts blank apart rest ih =>
      obtain ⟨u, rfl, spaced⟩ := ih
      exact ⟨gap ++ (tok.text ++ u), by simp, .cons blank apart.of_append spaced⟩

theorem Spaced.upTo (h : Spaced d.ahead ts c.ahead) (onward : c.LeadsTo d) :
    Spaced [] ts (c.upTo d.offset) := by
  obtain ⟨u, eq, spaced⟩ := h.exists_text
  rw [onward.ahead_eq] at eq
  rwa [List.append_cancel_right eq]

/-- What stands behind the tokens is not before them. -/
theorem Spaced.leadsTo {x : Cursor} (h : Spaced d.ahead ts x.ahead) (here : c.LeadsTo x)
    (onward : c.LeadsTo d) : x.LeadsTo d := by
  obtain ⟨u, eq, _⟩ := h.exists_text
  have size := congrArg List.length eq
  rw [List.length_append] at size
  have ends := here.end_eq
  have ends' := onward.end_eq
  exact here.of_le onward (by omega)

theorem Cursor.LeadsTo.upTo_advance {n : Nat} (h : (c.advance n).LeadsTo d) :
    c.upTo d.offset = c.ahead.take n ++ (c.advance n).upTo d.offset := by
  have le := h.offset_le
  rw [advance_offset] at le
  have size : d.offset - c.offset = n + (d.offset - (c.offset + n)) := by omega
  rw [Cursor.upTo, size, List.take_add]
  rfl

/-- Where no slash stands, nothing is taken out as a comment. -/
theorem Cursor.Reads.stripped_upTo (h : Reads c code d) :
    '/' ∉ c.upTo d.offset → Stripped c (c.upTo d.offset) d := by
  induction h with
  | here c =>
      intro _
      rw [Cursor.upTo, Nat.sub_self, List.take_zero]
      exact .here c
  | @lexeme c d code n h rest ih =>
      intro noSlash
      have cut := rest.leadsTo.upTo_advance
      rw [cut] at noSlash ⊢
      have noComment : c.comment? = .ok none := comment?_eq_none_of_ne fun first => by
        obtain ⟨w, eq⟩ := List.head?_eq_some_iff.mp first
        obtain ⟨k, size⟩ : ∃ k, n = k + 1 := Nat.exists_eq_add_one.mpr (lexeme?_bounds h).1
        refine noSlash (List.mem_append_left _ ?_)
        rw [eq, size]
        exact List.mem_cons_self
      rcases lexeme?_some_iff.mp h with comment | ⟨_, literal⟩
      · rw [noComment] at comment
        cases comment
      · exact .literal noComment literal (ih fun mem => noSlash (List.mem_append_right _ mem))
  | @char c d code ch h first rest ih =>
      intro noSlash
      obtain ⟨w, eq⟩ := List.head?_eq_some_iff.mp first
      have cut := rest.leadsTo.upTo_advance
      have one : c.ahead.take 1 = [ch] := by rw [eq]; rfl
      rw [cut, one] at noSlash ⊢
      exact .char h first (ih fun mem => noSlash (List.mem_append_right _ mem))

/-- What stands up to an offset is what is ahead, as far as the offset is away. -/
theorem Cursor.upTo_of_ahead {stop : Nat} {u w : Text} (eq : c.ahead = u ++ w) (reach : stop = c.offset + u.length) :
    c.upTo stop = u := by
  rw [Cursor.upTo, eq, reach, Nat.add_sub_cancel_left, List.take_left]

theorem Cursor.upTo_advance_of_ahead {u w : Text} (eq : c.ahead = u ++ w) : c.upTo (c.advance u.length).offset = u :=
  upTo_of_ahead eq rfl

/-- A literal is left as it is when comments are taken out. -/
theorem Literal.stripped {l : Literal} {w : Text} (eq : c.ahead = l.text ++ w) (fresh : c.Fresh) :
    Stripped c l.text (c.advance l.text.length) := by
  obtain ⟨code, reads, letters⟩ := Literal.reads_letters eq
  have ahead := Literal.ahead_lexeme eq
  have noSlash : '/' ∉ c.upTo (c.advance l.letters.length).offset := by
    rw [Literal.text, List.append_assoc] at eq
    rw [upTo_advance_of_ahead eq]
    intro mem
    cases l.letters_plain.1 '/' mem
  have front := reads.stripped_upTo noSlash
  rw [Literal.text, List.append_assoc] at eq
  rw [upTo_advance_of_ahead eq] at front
  have noComment : (c.advance l.letters.length).comment? = .ok none := by
    obtain ⟨ch, mem, v, shape, _⟩ := l.exists_lexeme
    refine comment?_eq_none_of_ne fun first => ?_
    rw [ahead, shape] at first
    cases first
    exact absurd mem (by decide)
  rcases lexeme?_some_iff.mp (Literal.lexeme?_eq ahead (Literal.fresh_lexeme (by rw [eq, text, List.append_assoc]) fresh))
    with comment | ⟨_, literal⟩
  · rw [noComment] at comment
    cases comment
  · have back := Stripped.literal noComment literal (.here _)
    rw [ahead, List.take_left, List.append_nil, advance_advance, ← List.length_append] at back
    exact front.append back

/-- Only literals and the operator itself hold a slash. -/
theorem Token.cases_of_slash {tok : Token} (plain : tok.isNote = false) (mem : '/' ∈ tok.text) :
    tok = .mark .slash ∨ ∃ l, tok = .literal l := by
  have word {w : Text} (inside : ∀ ch ∈ w, isWord ch = true ∨ ch = '#' ∨ ch = '.') (mem : '/' ∈ w) : False := by
    rcases inside '/' mem with h | h | h <;> cases h
  cases tok with
  | name i => exact (word (fun ch mem => (i.isIdentifier.isWord ch mem).imp_right .inl) mem).elim
  | number n => exact (word (fun ch mem => (n.word ch mem).imp_right .inr) mem).elim
  | lifetime l =>
      rcases List.mem_cons.mp mem with h | mem
      · cases h
      · exact (word (fun ch mem => .inl (l.isName.isWord ch mem)) mem).elim
  | literal l => exact .inr ⟨l, rfl⟩
  | mark m =>
      cases m with
      | slash => exact .inl rfl
      | _ => exact absurd mem (by decide +kernel)
  | note a => cases plain

/-- The first character of a type is no slash. -/
theorem Token.ne_slash_of_opensType {tok : Token} (plain : tok.isNote = false) (opens : tok.opensType = true) {ch : Char}
    {v : Text} (first : tok.text = ch :: v) : ch ≠ '/' := by
  rintro rfl
  rcases cases_of_slash plain (by rw [first]; exact List.mem_cons_self) with rfl | ⟨l, rfl⟩
  · cases opens
  · obtain ⟨ch, mem, u, shape, _⟩ := l.exists_first
    obtain rfl : ch = '/' := (List.cons.inj (shape.symm.trans first)).1
    exact absurd mem (by decide)

/-- A token is left as it is when comments are taken out. -/
theorem Token.stripped {tok : Token} {w : Text} {o o' : Opened} (eq : c.ahead = tok.text ++ w) (apart : tok.Apart w)
    (clear : c.Clear) (track : tok.track o = some o') (plain : tok.isNote = false) :
    Stripped c tok.text (c.advance tok.text.length) := by
  by_cases mem : '/' ∈ tok.text
  · rcases Token.cases_of_slash plain mem with rfl | ⟨l, rfl⟩
    · exact .char (lexeme?_slash eq apart.1 apart.2) (by rw [eq]; rfl) (.here _)
    · exact Literal.stripped eq clear.fresh
  · obtain ⟨code, reads, _⟩ := Token.reading eq apart clear track
    have stripped := reads.stripped_upTo (by rwa [upTo_advance_of_ahead eq])
    rwa [upTo_advance_of_ahead eq] at stripped

/-- Tokens that are no notes are left as they are when comments are taken out. -/
theorem Spaced.stripped : ∀ {ts : List Token} {o o' : Opened} {c : Cursor}, Spaced tail ts c.ahead → c.Clear →
    o.track ts = some o' → (∀ tok ∈ ts, tok.isNote = false) →
      ∃ u, c.ahead = u ++ tail ∧ Stripped c u (c.advance u.length) := by
  have gap {b w : Text} {c : Cursor} (blank : IsGap b) (eq : c.ahead = b ++ w) : Stripped c b (c.advance b.length) := by
    obtain ⟨code, reads, _⟩ := reads_blanks eq blank
    have stripped := reads.stripped_upTo (by
      rw [upTo_advance_of_ahead eq]
      intro mem
      cases blank '/' mem)
    rwa [upTo_advance_of_ahead eq] at stripped
  intro ts
  induction ts with
  | nil =>
      intro o o' c h _ _ _
      obtain ⟨b, t', eq, blank, ⟨_, rfl⟩ | ⟨_, _, _, ⟨⟩, _⟩⟩ := h.exists_gap
      exact ⟨b, eq, gap blank eq⟩
  | cons tok ts ih =>
      intro o o' c h clear track plain
      obtain ⟨here, behind⟩ := List.forall_mem_cons.mp plain
      obtain ⟨between, first, later⟩ := Option.bind_eq_some_iff.mp track
      obtain ⟨b, _, eq, blank, ⟨⟨⟩, _⟩ | ⟨_, _, w, ⟨⟩, rfl, apart, rest⟩⟩ := h.exists_gap
      have ahead := ahead_advance eq
      have clear' := clear.gap blank eq
      have token := Token.stripped ahead apart clear' first here
      rw [← ahead_advance ahead] at rest
      obtain ⟨u, more, stripped⟩ := ih rest (Token.clear ahead apart) later behind
      rw [ahead_advance ahead] at more
      refine ⟨b ++ (tok.text ++ u), by rw [eq, more]; simp, ?_⟩
      have all := (gap blank eq).append (token.append stripped)
      rwa [advance_advance, advance_advance, ← List.length_append, ← List.length_append] at all

/-- **Tokens that are no notes hold no comment.** -/
theorem Spaced.withoutComments {o : Opened} (h : Spaced d.ahead ts c.ahead) (onward : c.LeadsTo d)
    (clear : c.Clear) (track : Opened.start.track ts = some o)
    (plain : ∀ tok ∈ ts, tok.isNote = false) :
    (Piece.mk c d.offset).withoutComments = .ok (c.upTo d.offset) := by
  obtain ⟨u, eq, stripped⟩ := h.stripped clear track plain
  have same : u = c.upTo d.offset := by
    rw [onward.ahead_eq] at eq
    exact (List.append_cancel_right eq).symm
  have stop : (c.advance u.length).offset = d.offset := by
    rw [advance_offset, same, onward.length_upTo]
    have le := onward.offset_le
    omega
  rw [← stop, withoutComments_of_stripped stripped, stop, same]

end Stretch

/-! ## §4. The tokens of the text. -/

theorem toNat_of_isDigit {d : Char} (h : d.isDigit = true) : 48 ≤ d.toNat ∧ d.toNat ≤ 57 := by
  simp only [Char.isDigit, Bool.and_eq_true, decide_eq_true_eq] at h
  exact ⟨h.1, h.2⟩

theorem not_isNameStart_of_isDigit {d : Char} (h : d.isDigit = true) : isNameStart d = false := by
  obtain ⟨low, high⟩ := toNat_of_isDigit h
  have notScore : d ≠ '_' := by
    rintro rfl
    cases h
  have notUpper : d.isUpper = false := by
    refine decide_eq_false fun upper => ?_
    have bound : 65 ≤ d.toNat := upper.1
    omega
  have notLower : d.isLower = false := by
    show (decide (d.val ≥ 'a'.val) && decide (d.val ≤ 'z'.val)) = false
    refine Bool.and_eq_false_iff.mpr (.inl (decide_eq_false fun lower => ?_))
    have bound : 97 ≤ d.toNat := lower
    omega
  show (d.isUpper || d.isLower || d == '_') = false
  rw [notUpper, notLower, beq_eq_false_iff_ne.mpr notScore]
  rfl

theorem isDecimalDigit_of_isDigit {d : Char} (h : d.isDigit = true) : isDecimalDigit d = true := by
  have high := (toNat_of_isDigit h).2
  rw [isDecimalDigit, if_pos (by omega)]
  exact h

/-- What an identifier counts as in a type: the hash of a raw one is a token of its own. -/
def Identifier.parts (i : Identifier) : List Text :=
  match i.text with
  | 'r' :: '#' :: name => ["r", "#", name]
  | name => [name]

/-- What a token counts as in a type, where the text of a literal is cut like any other. -/
def Token.parts : Token → List Text
  | name i => i.parts
  | literal l => FieldType.tokenize l.text
  | tok => [tok.text]

open FieldType in
theorem Identifier.go_text (i : Identifier) {w : Text} (sealed : w.Sealed) :
    tokenize.go 0 (i.text ++ w) = i.parts ++ tokenize.go 0 w := by
  have stop : ∀ ch, w.head? = some ch → isWord ch = false := fun ch first => (sealed ch first).1
  rcases i.isIdentifier with name | ⟨n, name, eq⟩
  · have parts : i.parts = [i.text] := by
      rw [parts]
      split
      next n eq =>
        have hash := name.isWord '#' (by rw [eq]; simp)
        cases hash
      next => rfl
    rw [parts]
    exact go_name name stop
  · rw [parts, eq]
    exact congrArg (["r".toList, "#".toList] ++ ·) (go_name name stop)

open FieldType in
theorem Number.go_text {n : Number} {w : Text} (sealed : w.Sealed) (noPoint : w.head? ≠ some '.') :
    tokenize.go 0 (n.text ++ w) = n.text :: tokenize.go 0 w := by
  obtain ⟨d, v, eq, digit⟩ := n.digit
  have inside := n.word
  rw [eq] at inside ⊢
  have notTick : d ≠ '\'' := by
    rintro rfl
    cases digit
  have noName : Text.nameLength (d :: (v ++ w)) = 0 := by
    refine Text.nameLength_eq_zero fun ch first => ?_
    cases first
    exact not_isNameStart_of_isDigit digit
  have decimal : isDecimalDigit d = true := isDecimalDigit_of_isDigit digit
  -- what follows the number neither goes on with it nor makes a fraction of it
  have run : (v ++ w).takeWhile (fun ch => isWord ch || ch == '.') = v := by
    refine takeWhile_append_stop (fun ch mem => ?_) fun ch first => ?_
    · rw [Bool.or_eq_true, beq_iff_eq]
      exact inside ch (List.mem_cons_of_mem _ mem)
    · have other : ch ≠ '.' := fun same => noPoint (by rw [first, same])
      rw [(sealed ch first).1, Bool.false_or]
      exact beq_eq_false_iff_ne.mpr other
  have notBlank := not_isBlank_of_isWord (isWord_of_isDigit digit)
  have length : tokenLength (d :: v ++ w) = (d :: v).length := by
    rw [List.cons_append, tokenLength]
    simp only [if_neg notTick, noName]
    rw [if_neg (by decide), if_pos decimal, run]
    rfl
  exact go_token rfl notBlank length

open FieldType in
theorem Lifetime.go_text {l : Lifetime} {w : Text} (sealed : w.Sealed) :
    tokenize.go 0 ('\'' :: l.name ++ w) = ('\'' :: l.name) :: tokenize.go 0 w := by
  have length := Text.nameLength_append l.isName fun ch first => (sealed ch first).1
  have pos := List.length_pos_of_ne_nil l.isName.ne_nil
  have whole : tokenLength ('\'' :: l.name ++ w) = ('\'' :: l.name).length := by
    rw [List.cons_append, tokenLength]
    simp only [if_pos, length]
    rw [if_pos (by omega)]
    rfl
  exact go_token rfl rfl whole

open FieldType in
/-- The first character of an operator that has another one. -/
theorem go_operator {ch next : Char} {w : Text} (single : w.head? ≠ some next)
    (operator : (ch, next) ∈ [(':', ':'), ('-', '>'), ('=', '>')]) :
    tokenize.go 0 (ch :: w) = [ch] :: tokenize.go 0 w := by
  have alone (operator : Char × Char) (other : operator.1 = ch → operator.2 = next) :
      Text.startsWith (ch :: w) [operator.1, operator.2] = false := by
    cases w with
    | nil => simp [Text.startsWith, List.isPrefixOf]
    | cons x w =>
        have different : operator.1 = ch → operator.2 ≠ x := fun same same' =>
          single (by rw [← other same, same']; rfl)
        simpa [Text.startsWith, List.isPrefixOf] using different
  simp only [List.mem_cons, List.not_mem_nil, or_false, Prod.mk.injEq] at operator
  have noOperator : (["::", "->", "=>"] : List Text).any (Text.startsWith (ch :: w)) = false := by
    have colons := alone (':', ':')
    have arrow := alone ('-', '>')
    have fat := alone ('=', '>')
    show (Text.startsWith _ [':', ':'] || (Text.startsWith _ ['-', '>'] || (Text.startsWith _ ['=', '>'] || false)))
      = false
    rcases operator with ⟨rfl, rfl⟩ | ⟨rfl, rfl⟩ | ⟨rfl, rfl⟩ <;>
      rw [colons (by decide), arrow (by decide), fat (by decide)] <;> rfl
  have length : tokenLength (ch :: w) = 1 := by
    rw [tokenLength]
    simp only [noOperator]
    rcases operator with ⟨rfl, rfl⟩ | ⟨rfl, rfl⟩ | ⟨rfl, rfl⟩ <;> rfl
  refine go_token (w := [ch]) rfl ?_ length
  rcases operator with ⟨rfl, rfl⟩ | ⟨rfl, rfl⟩ | ⟨rfl, rfl⟩ <;> rfl

open FieldType in
/-- The last character of a literal is a token of its own. -/
theorem Literal.go_text {l : Literal} {w : Text} (apart : ∀ ch, w.head? = some ch → isWord ch = false) :
    tokenize.go 0 (l.text ++ w) = tokenize l.text ++ tokenize.go 0 w := by
  obtain ⟨v, ch, mem, last⟩ := l.exists_last
  have stops : ∀ ch ∈ ['"', '\'', '#'], isBreak ch = true := by decide
  have alone : ∀ {w : Text}, (∀ ch, w.head? = some ch → isWord ch = false) →
      tokenize.go 0 (ch :: w) = [ch] :: tokenize.go 0 w := by
    intro w apart
    have noName : Text.nameLength w = 0 := by
      refine Text.nameLength_eq_zero fun first h => ?_
      by_contra start
      rw [Bool.not_eq_false] at start
      have noWord := apart first h
      rw [isWord_of_isNameStart start] at noWord
      cases noWord
    simp only [List.mem_cons, List.not_mem_nil, or_false] at mem
    rcases mem with rfl | rfl | rfl
    · rfl
    · exact go_token (w := ['\'']) rfl rfl (by simp [tokenLength, noName]; rfl)
    · rfl
  have cut := go_append_break (stops ch mem)
  rw [tokenize, last, List.append_assoc, List.singleton_append, cut, alone apart, cut, alone (fun _ h => by cases h),
    List.append_assoc]
  rfl

open FieldType in
theorem Token.go_text {tok : Token} {w : Text} (plain : tok.isNote = false) (apart : tok.Apart w) :
    tokenize.go 0 (tok.text ++ w) = tok.parts ++ tokenize.go 0 w := by
  cases tok with
  | name i => exact i.go_text apart
  | number n => exact n.go_text apart.1 apart.2
  | lifetime l => exact l.go_text apart
  | literal l => exact Literal.go_text apart
  | mark m =>
      cases m with
      | colon => exact go_operator apart (by decide)
      | minus => exact go_operator apart (by decide)
      | equals => exact go_operator apart (by decide)
      | _ => rfl
  | note a => cases plain

/-- **The tokens of the text are the parts of its tokens.** -/
theorem Spaced.tokenize {ts : List Token} {t : Text} (h : Spaced [] ts t)
    (plain : ∀ tok ∈ ts, tok.isNote = false) : FieldType.tokenize t = ts.flatMap Token.parts := by
  induction h with
  | nil blank => exact FieldType.go_blanks blank
  | @cons gap w tok ts blank apart rest ih =>
      rw [FieldType.tokenize, FieldType.go_blanks blank, Token.go_text (plain tok List.mem_cons_self) apart,
        List.flatMap_cons]
      exact congrArg _ (ih fun tok mem => plain tok (List.mem_cons_of_mem _ mem))

theorem Token.parts_ne_nil (tok : Token) : tok.parts ≠ [] := by
  cases tok with
  | name i =>
      rw [parts, Identifier.parts]
      split <;> exact List.cons_ne_nil _ _
  | literal l =>
      obtain ⟨ch, mem, v, shape, _⟩ := l.exists_first
      have first : ∀ ch ∈ literalStarts, EnumExtract.isBlank ch = false := by decide
      rw [parts, shape, FieldType.tokenize, FieldType.tokenize.go, if_neg (by rw [first ch mem]; decide)]
      exact List.cons_ne_nil _ _
  | _ => exact List.cons_ne_nil _ _

theorem Spaced.trim_ne_nil {ts : List Token} {t : Text} (h : Spaced [] ts t)
    (plain : ∀ tok ∈ ts, tok.isNote = false) (more : ts ≠ []) : Text.trim t ≠ [] := by
  intro none
  have tokens := FieldType.tokenize_trim t
  rw [none, h.tokenize plain] at tokens
  cases ts with
  | nil => exact more rfl
  | cons tok ts =>
      have empty : (tok :: ts).flatMap Token.parts = [] := tokens.symm
      rw [List.flatMap_cons] at empty
      exact tok.parts_ne_nil (List.append_eq_nil_iff.mp empty).1

/-! ## §5. Identifiers and labels. -/

theorem Text.identifier?_eq_none {t : Text} (h : ∀ ch, t.head? = some ch → isNameStart ch = false) :
    identifier? t = none := by
  have zero : identifierLength t = 0 := by
    unfold identifierLength
    split
    next => cases h 'r' rfl
    next => exact nameLength_eq_zero h
  rw [identifier?, if_pos zero]

/-- The name read begins with the first character. -/
theorem Text.head?_of_identifier? {t n : Text} (h : identifier? t = some n) : n.head? = t.head? := by
  obtain ⟨rest, rfl, isIdentifier, _⟩ := identifier?_some h
  obtain ⟨ch, v, rfl, _⟩ := isIdentifier.exists_first
  rfl

/-- No keyword begins like a literal. -/
theorem Text.not_mem_reserved {t n : Text} {ch : Char} (first : t.head? = some ch) (mem : ch ∈ literalStarts)
    (h : identifier? t = some n) : n ∉ reservedWords := by
  have other : ∀ k ∈ reservedWords, ∀ ch ∈ literalStarts, k.head? ≠ some ch := by decide
  exact fun reserved => other n reserved ch mem ((head?_of_identifier? h).trans first)

theorem IsIdentifier.identifier?_text {u w : Text} (h : IsIdentifier u) (sealed : w.Sealed) :
    Text.identifier? (u ++ w) = some u :=
  Text.identifier?_append h (fun ch first => (sealed ch first).1) fun _ v eq =>
    absurd rfl (sealed '#' (by rw [eq]; rfl)).2.1

theorem IsIdentifier.identifier? {c : Cursor} {u w : Text} (h : IsIdentifier u) (eq : c.ahead = u ++ w)
    (sealed : w.Sealed) : c.identifier? = some (u, c.advance u.length) := by
  rw [Cursor.identifier?, eq, h.identifier?_text sealed]
  rfl

theorem Token.noName {tok : Token} (h : tok.startsName = false) (w : Text) :
    ∀ ch, (tok.text ++ w).head? = some ch → isNameStart ch = false := by
  cases tok with
  | name i => cases h
  | number n =>
      obtain ⟨d, v, eq, digit⟩ := n.digit
      rw [text, eq]
      rintro _ ⟨⟩
      exact not_isNameStart_of_isDigit digit
  | lifetime l =>
      rintro _ ⟨⟩
      rfl
  | literal l =>
      obtain ⟨ch, _, v, shape, noName⟩ := l.exists_first
      rw [text, shape]
      rintro _ ⟨⟩
      exact noName h
  | mark m =>
      cases m
      all_goals
        rintro _ ⟨⟩
        rfl
  | note a =>
      cases a
      all_goals
        rintro _ ⟨⟩
        rfl

theorem Token.noSingleColon {tok : Token} (plain : tok.isNote = false) (noColon : tok.isColon = false)
    {w : Text} :
    (Text.startsWith (tok.text ++ w) ":" && !Text.startsWith (tok.text ++ w) "::") = false := by
  have other {ch : Char} (v : Text) (h : ch ≠ ':') :
      (Text.startsWith (ch :: v) ":" && !Text.startsWith (ch :: v) "::") = false := by
    simp [Text.startsWith, List.isPrefixOf, Ne.symm h]
  cases tok with
  | name i =>
      obtain ⟨ch, v, eq, start⟩ := i.isIdentifier.exists_first
      rw [text, eq]
      refine other _ ?_
      rintro rfl
      cases start
  | number n =>
      obtain ⟨d, v, eq, digit⟩ := n.digit
      rw [text, eq]
      refine other _ ?_
      rintro rfl
      cases digit
  | lifetime l => exact other _ (by decide)
  | literal l =>
      obtain ⟨ch, mem, v, shape, _⟩ := l.exists_first
      have noColon : ∀ ch ∈ literalStarts, ch ≠ ':' := by decide
      rw [text, shape]
      exact other _ (noColon ch mem)
  | mark m =>
      cases m with
      | colon => cases noColon
      | colons => rfl
      | _ => exact other _ (by decide)
  | note a => cases plain

section Labels

variable {tail : Text} {ts : List Token} {tok : Token} {i : Identifier} {d e : Cursor}

namespace Cursor.At

theorem identifier?_name (h : At tail (.name i :: ts) d) :
    d.identifier? = some (i.text, d.advance i.text.length) := by
  obtain ⟨w, eq, apart, _⟩ := h.first
  rw [Cursor.identifier?, eq, Token.text, i.isIdentifier.identifier?_text apart]
  rfl

theorem identifier?_none (h : At tail (tok :: ts) d) (noName : tok.startsName = false) :
    d.identifier? = none := by
  obtain ⟨w, eq, _, _⟩ := h.first
  rw [Cursor.identifier?, eq, Text.identifier?_eq_none (Token.noName noName w)]
  rfl

/-- The text up to the place behind the tokens. -/
theorem upTo (h : At e.ahead (tok :: ts) d) (onward : d.LeadsTo e) :
    ∃ w, d.upTo e.offset = tok.text ++ w ∧ tok.Apart w ∧ Spaced [] ts w := by
  obtain ⟨v, eq, apart, rest⟩ := h.first
  obtain ⟨w, rfl, spaced⟩ := rest.exists_text
  rw [onward.ahead_eq, ← List.append_assoc] at eq
  exact ⟨w, List.append_cancel_right eq, apart.of_append, spaced⟩

/-- A name and a colon are a label. -/
theorem label?_name (h : At e.ahead (.name i :: .mark .colon :: ts) d) (onward : d.LeadsTo e) :
    ∃ n, Field.label? (d.upTo e.offset) = some (i.text, n) ∧ Spaced e.ahead ts (d.advance n).ahead
      ∧ (d.advance n).LeadsTo e ∧ (d.advance n).Clear := by
  obtain ⟨v, eq, apart, rest⟩ := h.first
  obtain ⟨b, _, rfl, blank, ⟨⟨⟩, _⟩ | ⟨_, _, w, ⟨⟩, rfl, single, after⟩⟩ := rest.exists_gap
  obtain ⟨u, rfl, _⟩ := after.exists_text
  have cut : d.upTo e.offset = i.text ++ b ++ ':' :: u := by
    rw [onward.ahead_eq] at eq
    exact List.append_cancel_right (eq.trans (by simp [Token.text, Mark.text]))
  have ahead : d.ahead = (i.text ++ b) ++ ':' :: (u ++ e.ahead) := by
    rw [eq]
    simp [Token.text, Mark.text]
  have behind : (d.advance (i.text.length + b.length + 1)).ahead = u ++ e.ahead := by
    rw [← List.length_append, advance_ahead, ahead, ← List.drop_drop, List.drop_left]
    rfl
  refine ⟨i.text.length + b.length + 1, ?_, by rwa [behind], ?_, ?_⟩
  · rw [cut]
    refine Field.label?_of_colon i.isIdentifier blank fun colon => single ?_
    obtain ⟨r, rfl⟩ := List.head?_eq_some_iff.mp colon
    rfl
  · have size := congrArg List.length ahead
    have size' := congrArg List.length behind
    simp only [List.length_append, List.length_cons] at size size'
    have toType : d.LeadsTo (d.advance (i.text.length + b.length + 1)) := leadsTo_advance (by omega)
    refine toType.of_le onward ?_
    have ends := onward.end_eq
    have ends' := toType.end_eq
    omega
  · have clear := Clear.behind (c := d) (u := i.text ++ b ++ [':']) (w := u ++ e.ahead) (i.text ++ b) ':'
      (by rw [ahead]; simp) rfl rfl
    simpa [Nat.add_assoc] using clear

/-- No token is the keyword of a visibility. -/
theorem noPub (h : At tail (tok :: ts) d) (after : Cursor) : d.identifier? ≠ some (("pub" : Text), after) := by
  have reserved : ("pub" : Text) ∈ reservedWords := by decide
  intro found
  cases tok with
  | name i =>
      rw [h.identifier?_name] at found
      have text := congrArg Prod.fst (Option.some.inj found)
      exact i.free (by rw [show i.text = "pub" from text]; exact reserved)
  | literal l =>
      obtain ⟨w, eq, _, _⟩ := h.first
      obtain ⟨ch, mem, v, shape, _⟩ := l.exists_first
      have first : d.ahead.head? = some ch := by
        rw [eq, Token.text, shape]
        rfl
      exact Text.not_mem_reserved first mem (identifier?_eq_some found).1 reserved
  | _ =>
      rw [h.identifier?_none rfl] at found
      cases found

/-- Tokens that begin with no label. -/
theorem label?_none (h : At e.ahead (tok :: ts) d) (onward : d.LeadsTo e)
    (plain : ∀ tok ∈ ts, tok.isNote = false) (unlabelled : Token.Unlabelled (tok :: ts)) :
    Field.label? (d.upTo e.offset) = none := by
  obtain ⟨w, eq, apart, rest⟩ := h.upTo onward
  rw [eq]
  cases tok with
  | name i =>
      have found := i.isIdentifier.identifier?_text apart
      obtain ⟨b, r, rfl, blank, ⟨rfl, rfl⟩ | ⟨tok, us, v, rfl, rfl, apart', _⟩⟩ := rest.exists_gap
      · rw [Token.text, ← List.append_assoc] at *
        rw [Field.label?_append found blank fun ch first => by cases first]
        rfl
      · have still := Token.still (plain tok List.mem_cons_self) apart'
        rw [Token.text, ← List.append_assoc] at *
        rw [Field.label?_append found blank fun ch first => still.notBlank first,
          Token.noSingleColon (plain tok List.mem_cons_self) unlabelled]
        rfl
  | literal l => exact absurd unlabelled id
  | _ =>
      rw [Field.label?, Text.identifier?_eq_none (Token.noName rfl w)]
      rfl

end Cursor.At

end Labels

end EnumExtract
