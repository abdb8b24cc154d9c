/-
  EnumExtract.Proofs.Lockstep
  ────────────────────────────────
  Two texts that are read in lockstep.

  A relation between the places of two texts is given.  Two places are *in
  step* if the same stands at both of them as far as the readers look: the same
  first character, a comment, a lexeme, a word, a scope or none, and if what
  starts there leads to related places again.  The lengths may differ where
  nothing but the end of a lexeme is asked for.  Or trivia stand at both of
  them, a comment here and a blank there perhaps, and are skipped.

      R c c' ──── reader ────►  R d d'

  Every reader that the scan is made of then goes from related places to
  related places, and finds the same but for the offsets.  Only where the text
  of an attribute is taken as a whole the relation has to keep that text.

  Main results:
    • `Lockstep.closing`     a bracket closes in both texts,
    • `Lockstep.prelude`     the same attributes are read,
    • `Lockstep.headRead`    the same declaration heads,
    • `Lockstep.plainlyNamed`  names without raw strings.
-/
import EnumExtract.Proofs.PassThrough
import EnumExtract.Proofs.Transfer

namespace EnumExtract

open Cursor

/-! ## §1. Places in step. -/

namespace Cursor

/-- The character at the cursor is neither a semicolon nor a closing brace, or something other
than blanks stands behind it. -/
def Passable (c : Cursor) : Prop :=
  (∀ ch, c.ahead.head? = some ch → ch ≠ ';' ∧ ch ≠ '\x7d')
    ∨ ∃ ch ∈ c.ahead.drop 1, isBlank ch = false

/-- The readers find the same at both places, and what they pass there leads to places that
are related by `R`. -/
structure InStep (R : Cursor → Cursor → Prop) (c c' : Cursor) : Prop where
  head : c'.ahead.head? = c.ahead.head?
  start : c.ahead ≠ [] → c'.atWordStart = c.atWordStart
  comment : ∀ n, c.comment? = .ok (some n) → ∃ n', c'.comment? = .ok (some n')
  noComment : c.comment? = .ok none → c'.comment? = .ok none
  lexeme : ∀ n, c.lexeme? = .ok (some n) →
    ∃ n', c'.lexeme? = .ok (some n') ∧ R (c.advance n) (c'.advance n')
  noLexeme : c.lexeme? = .ok none → c'.lexeme? = .ok none
  next : c.lexeme? = .ok none → c.ahead ≠ [] → c.Passable → R (c.advance 1) (c'.advance 1)
  doc : startsDocComment c'.ahead = startsDocComment c.ahead
  docText : ∀ n, startsDocComment c.ahead = true → c.lexeme? = .ok (some n) →
    c'.lexeme? = .ok (some n) ∧ c'.ahead.take n = c.ahead.take n
      ∧ R (c.advance (Text.trimEnd (c.ahead.take n)).length)
          (c'.advance (Text.trimEnd (c.ahead.take n)).length)
  sees : c'.sees "#[" = c.sees "#["
  word : ∀ w after, c.identifier? = some (w, after) →
    ∃ after', c'.identifier? = some (w, after')
      ∧ (after'.ahead.head? = after.ahead.head? ∨ R after after')
      ∧ (c.PlainWord w → c'.PlainWord w ∧ R after after')
  scope : scopeLength? c'.ahead = scopeLength? c.ahead
  scopeText : ∀ n, scopeLength? c.ahead = some n →
    c'.ahead.take n = c.ahead.take n ∧ R (c.advance n) (c'.advance n)

/-- Trivia stand at both places, each a blank or a comment that is no doc comment, and lead to
places that are related by `R`. -/
def Skipped (R : Cursor → Cursor → Prop) (c c' : Cursor) : Prop :=
  ∃ n n', c.trivium? true = .ok (some n) ∧ c'.trivium? true = .ok (some n')
    ∧ R (c.advance n) (c'.advance n')

end Cursor

/-- Related places of the two texts are in step or skipped, and the relation keeps their order. -/
structure Lockstep (t t' : Text) (R : Cursor → Cursor → Prop) : Prop where
  place : ∀ {c c'}, R c c' → c = t.cursor c.offset ∧ c' = t'.cursor c'.offset
  order : ∀ {c c' d d'}, R c c' → R d d' → (c.offset < d.offset ↔ c'.offset < d'.offset)
  inStep : ∀ {c c'}, R c c' → c.InStep R c' ∨ c.Skipped R c'

/-- The text of an attribute is the same at related places, and no offset is shifted in it. -/
def KeepsAttributes (R : Cursor → Cursor → Prop) : Prop :=
  ∀ ⦃c c' d⦄, R c c' → c.sees "#[" = true → (c.advance 1).closing = .ok d →
    c'.ahead.take (d.offset + 1 - c.offset) = c.ahead.take (d.offset + 1 - c.offset)
      ∧ ∀ x x', R x x' → c.offset ≤ x.offset → x.offset ≤ d.offset →
        x'.offset + c.offset = x.offset + c'.offset

/-- The offsets are those of related places. -/
def Marks (R : Cursor → Cursor → Prop) (i i' : Nat) : Prop :=
  ∃ c c', R c c' ∧ c.offset = i ∧ c'.offset = i'

/-- Names of declarations at the cursor lead from related places to related places. -/
def Cursor.PassesNames (R : Cursor → Cursor → Prop) (c : Cursor) : Prop :=
  ∀ ⦃item : Item⦄ ⦃head place behind name after : Cursor⦄, ItemAt c item head place behind name after →
    ∀ ⦃name' after' : Cursor⦄, R name name' → name'.identifier? = some (item.name, after') → R after after'

theorem Marks.of {R : Cursor → Cursor → Prop} {c c' : Cursor} (h : R c c') :
    Marks R c.offset c'.offset :=
  ⟨c, c', h, rfl, rfl⟩

/-! ## §2. Where trivia stand. -/

namespace Cursor

variable {c : Cursor} {keepDocs : Bool} {n : Nat}

/-- A blank or a slash is the first character of trivia. -/
theorem first_of_trivium (h : c.trivium? keepDocs = .ok (some n)) :
    ∃ ch, c.ahead.head? = some ch ∧ (isBlank ch = true ∨ ch = '/') := by
  obtain ⟨ch, first, ⟨blank, _⟩ | ⟨_, _, comment⟩⟩ := trivium?_some h
  · exact ⟨ch, first, .inl blank⟩
  · rcases comment?_some comment with ⟨_, ahead, _⟩ | ⟨_, ahead, _⟩ <;>
      exact ⟨'/', by rw [ahead]; rfl, .inr rfl⟩

/-- A comment that counts as trivia. -/
theorem trivium?_of_comment (comment : c.comment? = .ok (some n))
    (noDoc : (keepDocs && startsDocComment c.ahead) = false) : c.trivium? keepDocs = .ok (some n) := by
  unfold trivium?
  split
  next none =>
    unfold comment? at comment
    rw [none] at comment
    cases comment
  next ch rest eq =>
    have slash : ch = '/' := by
      rcases comment?_some comment with ⟨_, ahead, _⟩ | ⟨_, ahead, _⟩ <;> rw [eq] at ahead <;>
        exact (List.cons.inj ahead).1
    rw [slash, if_neg (by decide), noDoc, if_neg Bool.false_ne_true]
    exact comment

theorem not_isNameStart_of_trivium (h : c.trivium? keepDocs = .ok (some n)) :
    ∀ ch, c.ahead.head? = some ch → isNameStart ch = false := by
  obtain ⟨ch, first, blank | rfl⟩ := first_of_trivium h <;> intro ch' first' <;> rw [first] at first' <;>
    cases first'
  · refine Bool.eq_false_iff.mpr fun start => ?_
    rw [not_isBlank_of_isWord (isWord_of_isNameStart start)] at blank
    cases blank
  · rfl

/-- No word starts where trivia stand. -/
theorem identifier?_of_trivium (h : c.trivium? keepDocs = .ok (some n)) : c.identifier? = none := by
  obtain ⟨ch, first, _⟩ := first_of_trivium h
  exact identifier?_of_head? first (not_isNameStart_of_trivium h ch first)

theorem startsKeyword_of_trivium (h : c.trivium? keepDocs = .ok (some n)) (keywords : List Text) :
    c.startsKeyword keywords = false := by
  have noWord := Option.map_eq_none_iff.mp (identifier?_of_trivium h)
  rw [Cursor.startsKeyword, noWord, Option.any_none, Bool.and_false]

theorem startsKeyword_of_end (h : c.ahead = []) (keywords : List Text) : c.startsKeyword keywords = false := by
  have noWord : Text.identifier? c.ahead = none := by rw [h]; rfl
  rw [Cursor.startsKeyword, noWord, Option.any_none, Bool.and_false]

/-- What starts with neither a blank nor a slash is not seen where trivia stand. -/
theorem unseen_of_trivium {ch : Char} {word : Text} (h : c.trivium? keepDocs = .ok (some n))
    (solid : isBlank ch = false) (noSlash : ch ≠ '/') : c.sees (ch :: word) = false := by
  refine Bool.eq_false_iff.mpr fun sees => ?_
  obtain ⟨rest, eq⟩ := sees_iff.mp sees
  obtain ⟨ch', first, blank | rfl⟩ := first_of_trivium h <;> rw [eq] at first <;> cases first
  · rw [solid] at blank
    cases blank
  · exact noSlash rfl

theorem scopeLength?_of_trivium (h : c.trivium? keepDocs = .ok (some n)) : scopeLength? c.ahead = none := by
  cases hs : scopeLength? c.ahead with
  | none => rfl
  | some m =>
      obtain ⟨inner, rest, eq, _⟩ := scopeLength?_some hs
      have unseen : c.sees "(" = false := unseen_of_trivium h rfl (by decide)
      rw [sees_iff.mpr ⟨inner ++ ')' :: rest, eq⟩] at unseen
      cases unseen

/-- Docs apart, trivia are lexemes or single blanks. -/
theorem lexeme?_of_trivium (h : c.trivium? keepDocs = .ok (some n)) :
    c.lexeme? = .ok (some n)
      ∨ (c.lexeme? = .ok none ∧ n = 1 ∧ ∃ ch, c.ahead.head? = some ch ∧ isBlank ch = true) := by
  obtain ⟨ch, first, ⟨blank, rfl⟩ | ⟨_, _, comment⟩⟩ := trivium?_some h
  · exact .inr ⟨lexeme?_of_blank first blank, rfl, ch, first, blank⟩
  · exact .inl (lexeme?_some_iff.mpr (.inl comment))

/-- Where trivia stand a step over a lexeme or a single character is one over the trivia. -/
theorem exists_lexeme?_of_trivium (h : c.trivium? keepDocs = .ok (some n)) :
    ∃ length?, c.lexeme? = .ok length? ∧ length?.getD 1 = n := by
  rcases lexeme?_of_trivium h with hl | ⟨hl, rfl, _⟩
  · exact ⟨some n, hl, rfl⟩
  · exact ⟨none, hl, rfl⟩

theorem noDoc_of_trivium (h : c.trivium? true = .ok (some n)) : startsDocComment c.ahead = false := by
  obtain ⟨ch, first, ⟨blank, _⟩ | ⟨_, noDoc, _⟩⟩ := trivium?_some h
  · have noComment := (lexeme?_none_iff.mp (lexeme?_of_blank first blank)).1
    exact Bool.eq_false_iff.mpr fun doc => comment?_of_startsDocComment doc noComment
  · simpa using noDoc

/-- A blank is no bracket. -/
theorem nest_blank {ch : Char} (blank : isBlank ch = true) (awaited code : List Char) :
    nest awaited (ch :: code) = nest awaited code := by
  rw [nest_cons, nest_of_plain awaited fun x mem => ?_, Option.bind_some]
  rw [List.mem_singleton.mp mem]
  exact bracketWeight_of_blank blank

/-- Trivia are read with what stands behind them, and no bracket is. -/
theorem reads_trivium {d : Cursor} {code : List (Cursor × Char)} (h : c.trivium? keepDocs = .ok (some n))
    (r : Reads (c.advance n) code d) :
    ∃ all, Reads c all d ∧ ∀ awaited, nest awaited (chars all) = nest awaited (chars code) := by
  rcases lexeme?_of_trivium h with hl | ⟨hl, rfl, ch, first, blank⟩
  · exact ⟨code, .lexeme hl r, fun _ => rfl⟩
  · refine ⟨(c, ch) :: code, .char hl first r, fun awaited => ?_⟩
    rw [chars_cons, nest_blank blank]

theorem eq_of_skipped {m : Nat} (h : c.trivium? keepDocs = .ok (some m)) (hl : c.lexeme? = .ok (some n)) :
    n = m := by
  rcases lexeme?_of_trivium h with hl' | ⟨hl', _⟩ <;> rw [hl] at hl' <;> cases hl'
  rfl

theorem blank_of_skipped {ch : Char} (h : c.trivium? keepDocs = .ok (some n)) (hl : c.lexeme? = .ok none)
    (first : c.ahead.head? = some ch) : n = 1 ∧ isBlank ch = true := by
  rcases lexeme?_of_trivium h with hl' | ⟨_, rfl, ch', first', blank⟩
  · rw [hl] at hl'
    cases hl'
  · rw [first] at first'
    cases first'
    exact ⟨rfl, blank⟩

/-- What is trivia when docs are kept is trivia when they are not. -/
theorem trivium?_of_keepDocs (h : c.trivium? true = .ok (some n)) : c.trivium? keepDocs = .ok (some n) := by
  have noDoc := noDoc_of_trivium h
  unfold trivium? at h ⊢
  split at h
  next => cases h
  next => simpa only [noDoc, Bool.and_false] using h

end Cursor

/-! ## §3. Trivia and brackets. -/

namespace Cursor

theorem trivium?_of_isBlank {c : Cursor} {ch : Char} {keepDocs : Bool}
    (first : c.ahead.head? = some ch) (blank : isBlank ch = true) :
    c.trivium? keepDocs = .ok (some 1) := by
  obtain ⟨rest, eq⟩ := List.head?_eq_some_iff.mp first
  unfold trivium?
  rw [eq]
  simp only
  rw [if_pos blank]

theorem passable_of_first {c : Cursor} {ch : Char} (first : c.ahead.head? = some ch)
    (other : ch ≠ ';' ∧ ch ≠ '\x7d') : c.Passable := by
  refine .inl fun ch' first' => ?_
  rw [first] at first'
  cases first'
  exact other

theorem passable_of_isBlank {c : Cursor} {ch : Char} (first : c.ahead.head? = some ch)
    (blank : isBlank ch = true) : c.Passable := by
  refine passable_of_first first ⟨?_, ?_⟩
  · rintro rfl
    cases blank
  · rintro rfl
    cases blank

/-- What stands in front of a place that is not blank can be passed. -/
theorem LeadsTo.passable {c d : Cursor} {ch : Char} (h : c.LeadsTo d) (lt : c.offset < d.offset)
    (first : d.ahead.head? = some ch) (plain : isBlank ch = false) : c.Passable := by
  obtain ⟨k, bound, rfl⟩ := h
  rw [advance_offset] at lt
  rw [advance_ahead, List.head?_drop] at first
  refine .inr ⟨ch, ?_, plain⟩
  refine List.mem_of_getElem? (i := k - 1) ?_
  rw [List.getElem?_drop, show 1 + (k - 1) = k from by omega]
  exact first

/-- A reading up to a place that is not blank passes passable characters only. -/
theorem Reads.passable {c d : Cursor} {ch : Char} {code : List (Cursor × Char)}
    (h : Reads c code d) (first : d.ahead.head? = some ch) (plain : isBlank ch = false) :
    ∀ x ∈ code, x.1.Passable := by
  intro x mem
  obtain ⟨before, after, rfl⟩ := List.append_of_mem mem
  obtain ⟨_, _, here, rest⟩ := h.at_mem
  have forward := rest.offset_le
  rw [advance_offset] at forward
  exact ((leadsTo_first here).trans rest.leadsTo).passable (by omega) first plain

end Cursor

namespace Lockstep

variable {t t' : Text} {R : Cursor → Cursor → Prop} {c c' d : Cursor} {keepDocs : Bool}

theorem le_iff (L : Lockstep t t' R) {d' : Cursor} (h : R c c') (h' : R d d') :
    c.offset ≤ d.offset ↔ c'.offset ≤ d'.offset := by
  have := L.order h' h
  omega

theorem ahead_ne_nil (L : Lockstep t t' R) (h : R c c') (more : c.ahead ≠ []) : c'.ahead ≠ [] := by
  intro none
  rcases L.inStep h with both | ⟨_, _, _, skip', _⟩
  · have head := both.head
    rw [none] at head
    exact more (List.head?_eq_none_iff.mp head.symm)
  · rw [trivium?_of_end none] at skip'
    cases skip'

theorem ahead_eq_nil (L : Lockstep t t' R) (h : R c c') (atEnd : c.ahead = []) : c'.ahead = [] := by
  rcases L.inStep h with both | ⟨_, _, skip, _⟩
  · have head := both.head
    rw [atEnd] at head
    exact List.head?_eq_none_iff.mp head
  · rw [trivium?_of_end atEnd] at skip
    cases skip

/-- A single character that is no part of trivia is seen at both places or at neither. -/
theorem sees_char {ch : Char} (L : Lockstep t t' R) (h : R c c') (solid : isBlank ch = false)
    (noSlash : ch ≠ '/') : c'.sees [ch] = c.sees [ch] := by
  have (t : Text) : Text.startsWith t [ch] = (t.head? == some ch) := by
    cases t with
    | nil => rfl
    | cons x t =>
        show (ch == x && List.isPrefixOf [] t) = (some x == some ch)
        rw [List.isPrefixOf, Bool.and_true, Option.some_beq_some]
        exact Bool.beq_comm
  rcases L.inStep h with both | ⟨_, _, skip, skip', _⟩
  · unfold Cursor.sees
    rw [this, this, both.head]
  · rw [unseen_of_trivium skip solid noSlash, unseen_of_trivium skip' solid noSlash]

theorem doc (L : Lockstep t t' R) (h : R c c') : startsDocComment c'.ahead = startsDocComment c.ahead := by
  rcases L.inStep h with both | ⟨_, _, skip, skip', _⟩
  · exact both.doc
  · rw [noDoc_of_trivium skip, noDoc_of_trivium skip']

theorem sees_attribute (L : Lockstep t t' R) (h : R c c') : c'.sees "#[" = c.sees "#[" := by
  rcases L.inStep h with both | ⟨_, _, skip, skip', _⟩
  · exact both.sees
  · have unseen {x : Cursor} {n : Nat} (skip : x.trivium? true = .ok (some n)) : x.sees "#[" = false :=
      unseen_of_trivium skip rfl (by decide)
    rw [unseen skip, unseen skip']

theorem docText {n : Nat} (L : Lockstep t t' R) (h : R c c') (isDoc : startsDocComment c.ahead = true)
    (hl : c.lexeme? = .ok (some n)) :
    c'.lexeme? = .ok (some n) ∧ c'.ahead.take n = c.ahead.take n
      ∧ R (c.advance (Text.trimEnd (c.ahead.take n)).length)
          (c'.advance (Text.trimEnd (c.ahead.take n)).length) := by
  rcases L.inStep h with both | ⟨_, _, skip, _⟩
  · exact both.docText n isDoc hl
  · rw [noDoc_of_trivium skip] at isDoc
    cases isDoc

theorem word {w : Text} {after : Cursor} (L : Lockstep t t' R) (h : R c c')
    (hw : c.identifier? = some (w, after)) :
    ∃ after', c'.identifier? = some (w, after')
      ∧ (after'.ahead.head? = after.ahead.head? ∨ R after after')
      ∧ (c.PlainWord w → c'.PlainWord w ∧ R after after') := by
  rcases L.inStep h with both | ⟨_, _, skip, _⟩
  · exact both.word w after hw
  · rw [identifier?_of_trivium skip] at hw
    cases hw

theorem scope (L : Lockstep t t' R) (h : R c c') : scopeLength? c'.ahead = scopeLength? c.ahead := by
  rcases L.inStep h with both | ⟨_, _, skip, skip', _⟩
  · exact both.scope
  · rw [scopeLength?_of_trivium skip, scopeLength?_of_trivium skip']

theorem scopeText {n : Nat} (L : Lockstep t t' R) (h : R c c') (hs : scopeLength? c.ahead = some n) :
    c'.ahead.take n = c.ahead.take n ∧ R (c.advance n) (c'.advance n) := by
  rcases L.inStep h with both | ⟨_, _, skip, _⟩
  · exact both.scopeText n hs
  · rw [scopeLength?_of_trivium skip] at hs
    cases hs

/-- Where no trivia stand, places are in step. -/
theorem inStep_of_solid {ch : Char} (L : Lockstep t t' R) (h : R c c') (first : c.ahead.head? = some ch)
    (solid : isBlank ch = false) (noSlash : ch ≠ '/') : c.InStep R c' := by
  rcases L.inStep h with both | ⟨_, _, skip, _⟩
  · exact both
  · rw [trivium?_of_first first solid noSlash] at skip
    cases skip

/-- Brackets are in step. -/
theorem inStep_of_bracket {ch : Char} (L : Lockstep t t' R) (h : R c c') (first : c.ahead.head? = some ch)
    (bracket : (closer? ch).isSome = true ∨ isCloser ch = true) : c.InStep R c' := by
  refine L.inStep_of_solid h first (isBracket_not_blank bracket) ?_
  rintro rfl
  rcases bracket with opens | closes
  · cases opens
  · cases closes

theorem trivium_some {n : Nat} (L : Lockstep t t' R) (h : R c c')
    (ht : c.trivium? keepDocs = .ok (some n)) :
    ∃ n', c'.trivium? keepDocs = .ok (some n') ∧ R (c.advance n) (c'.advance n') := by
  rcases L.inStep h with both | ⟨m, m', skip, skip', related⟩
  swap
  · rw [trivium?_of_keepDocs skip] at ht
    cases ht
    exact ⟨m', trivium?_of_keepDocs skip', related⟩
  obtain ⟨ch, first, ⟨blank, rfl⟩ | ⟨plain, noDoc, comment⟩⟩ := trivium?_some ht
  · refine ⟨1, trivium?_of_isBlank (both.head.trans first) blank, ?_⟩
    refine both.next (lexeme?_of_blank first blank) ?_ (passable_of_isBlank first blank)
    intro none
    rw [none] at first
    cases first
  · obtain ⟨n', comment'⟩ := both.comment n comment
    obtain ⟨n'', lexeme', related⟩ := both.lexeme n (lexeme?_some_iff.mpr (.inl comment))
    rw [lexeme?_some_iff.mpr (.inl comment')] at lexeme'
    cases lexeme'
    exact ⟨n', trivium?_of_comment comment' (by rw [both.doc, noDoc]), related⟩

theorem trivium_none (L : Lockstep t t' R) (h : R c c') (ht : c.trivium? keepDocs = .ok none) :
    c'.trivium? keepDocs = .ok none := by
  rcases L.inStep h with both | ⟨_, _, skip, _⟩
  swap
  · rw [trivium?_of_keepDocs skip] at ht
    cases ht
  obtain ⟨plain, comment⟩ := trivium?_none ht
  unfold trivium?
  split
  next => rfl
  next ch rest eq =>
    have first : c.ahead.head? = some ch := by rw [← both.head, eq, List.head?_cons]
    rw [if_neg (by rw [plain ch first]; exact Bool.false_ne_true), both.doc]
    split
    next => rfl
    next noDoc =>
      rcases comment with isDoc | comment
      · exact absurd isDoc noDoc
      · exact both.noComment comment

/-- Trivia lead to related places. -/
theorem trivia (L : Lockstep t t' R) (h : R c c') (ht : Trivia keepDocs c d) :
    ∃ d', Trivia keepDocs c' d' ∧ R d d' := by
  induction ht generalizing c' with
  | stop ht => exact ⟨c', .stop (L.trivium_none h ht), h⟩
  | pass ht _ ih =>
      obtain ⟨n', here, related⟩ := L.trivium_some h ht
      obtain ⟨d', rest, there⟩ := ih related
      exact ⟨d', .pass here rest, there⟩

/-- Behind a word trivia lead to related places, or to places where no bracket opens: the word may
leave the two texts at different places only in front of a character that may open a raw string. -/
theorem triviaBehind {x x' y : Cursor} (L : Lockstep t t' R)
    (same : x'.ahead.head? = x.ahead.head? ∨ R x x')
    (related : ∀ stop rest, x.ahead = stop :: rest →
      stop ≠ '#' ∧ stop ≠ '"' ∧ stop ≠ 'r' ∧ stop ≠ 'b' → R x x')
    (ht : Trivia false x y) :
    ∃ y', Trivia false x' y' ∧ (R y y' ∨ ∀ opener, (closer? opener).isSome = true →
      y.sees [opener] = false ∧ y'.sees [opener] = false) := by
  rcases same with same | there
  swap
  · obtain ⟨y', ht', atY⟩ := L.trivia there ht
    exact ⟨y', ht', .inl atY⟩
  -- where trivia stop at once, they stop in both texts
  have stuck (stop : ∀ z : Cursor, z.ahead.head? = x.ahead.head? → z.trivium? false = .ok none
      ∧ ∀ opener, (closer? opener).isSome = true → z.sees [opener] = false) :
      ∃ y', Trivia false x' y' ∧ (R y y' ∨ ∀ opener, (closer? opener).isSome = true →
        y.sees [opener] = false ∧ y'.sees [opener] = false) := by
    rw [ht.eq_of_stop (stop x rfl).1]
    exact ⟨x', .stop (stop x' same).1,
      .inr fun opener opens => ⟨(stop x rfl).2 opener opens, (stop x' same).2 opener opens⟩⟩
  have unseen {z : Cursor} {opener : Char} (absent : z.ahead.head? ≠ some opener) :
      z.sees [opener] = false :=
    Bool.eq_false_iff.mpr fun sees => absent (first_of_sees sees)
  cases eq : x.ahead with
  | nil =>
      refine stuck fun z none => ?_
      rw [eq, List.head?_nil] at none
      exact ⟨trivium?_of_end (List.head?_eq_none_iff.mp none), fun opener _ => unseen (by rw [none]; nofun)⟩
  | cons stop rest =>
      by_cases outside : stop ≠ '#' ∧ stop ≠ '"' ∧ stop ≠ 'r' ∧ stop ≠ 'b'
      · obtain ⟨y', ht', there⟩ := L.trivia (related stop rest eq outside) ht
        exact ⟨y', ht', .inl there⟩
      · obtain ⟨plain, noSlash, noBracket⟩ := stuck_of_opener outside
        refine stuck fun z first => ?_
        rw [eq, List.head?_cons] at first
        refine ⟨trivium?_of_first first plain noSlash, fun opener opens => unseen ?_⟩
        rw [first]
        rintro ⟨rfl⟩
        rw [noBracket] at opens
        cases opens

/-- A reading leads to related places, if what it passes can be passed, and the same brackets nest
in it. -/
theorem reads {code : List (Cursor × Char)} (L : Lockstep t t' R) (h : R c c') (r : Reads c code d)
    (pass : ∀ x ∈ code, x.1.Passable) :
    ∃ code' d', Reads c' code' d' ∧ R d d'
      ∧ ∀ awaited, nest awaited (chars code') = nest awaited (chars code) := by
  induction r generalizing c' with
  | here c => exact ⟨[], c', .here c', h, fun _ => rfl⟩
  | @lexeme c d code n hl _ ih =>
      rcases L.inStep h with both | ⟨m, m', skip, skip', related⟩
      · obtain ⟨n', here, related⟩ := both.lexeme _ hl
        obtain ⟨code', d', rest, there, same⟩ := ih related pass
        exact ⟨code', d', .lexeme here rest, there, same⟩
      · obtain rfl : n = m := eq_of_skipped skip hl
        obtain ⟨code', d', rest, there, same⟩ := ih related pass
        obtain ⟨skipped, reads', same'⟩ := reads_trivium skip' rest
        exact ⟨skipped, d', reads', there, fun awaited => (same' awaited).trans (same awaited)⟩
  | @char c d code ch hl first _ ih =>
      have later : ∀ x ∈ code, x.1.Passable := fun x mem => pass x (List.mem_cons_of_mem _ mem)
      rcases L.inStep h with both | ⟨m, m', skip, skip', related⟩
      · have more : c.ahead ≠ [] := by
          intro none
          rw [none] at first
          cases first
        have related := both.next hl more (pass (c, ch) List.mem_cons_self)
        obtain ⟨code', d', rest, there, same⟩ := ih related later
        refine ⟨(c', ch) :: code', d', .char (both.noLexeme hl) (both.head.trans first) rest, there, ?_⟩
        intro awaited
        rw [chars_cons, chars_cons, nest_cons, nest_cons awaited ch (chars code)]
        exact congrArg _ (funext same)
      · -- a blank is skipped, which is no bracket
        obtain ⟨rfl, blank⟩ := blank_of_skipped skip hl first
        obtain ⟨code', d', rest, there, same⟩ := ih related later
        obtain ⟨skipped, reads', same'⟩ := reads_trivium skip' rest
        refine ⟨skipped, d', reads', there, fun awaited => ?_⟩
        rw [same', same, chars_cons, nest_blank blank]

/-- The character behind a bracket, or any other that can be passed, is related. -/
theorem behind {ch : Char} (L : Lockstep t t' R) (h : R c c') (first : c.ahead.head? = some ch)
    (solid : isBlank ch = false) (plain : mayStartLexeme ch = false) (pass : c.Passable) :
    R (c.advance 1) (c'.advance 1) := by
  have noSlash : ch ≠ '/' := by
    rintro rfl
    cases plain
  refine (L.inStep_of_solid h first solid noSlash).next (lexeme?_eq_none fun ch' first' => ?_) ?_ pass
  · rw [first] at first'
    cases first'
    exact plain
  · intro none
    rw [none] at first
    cases first

/-- **A bracket closes in both texts.** -/
theorem closing (L : Lockstep t t' R) (h : R c c') (hd : c.closing = .ok d) :
    ∃ d', c'.closing = .ok d' ∧ R d d' := by
  obtain ⟨code, encloses⟩ := closing_ok_iff.mp hd
  obtain ⟨opener, closer, first, pair, last⟩ := encloses.closes
  have plain : isBlank closer = false := isBracket_not_blank (.inr (isCloser_of_closer? pair).1)
  have both := L.inStep_of_bracket h first (.inl (by rw [pair]; rfl))
  have inside : R (c.advance 1) (c'.advance 1) := by
    refine both.next (lexeme?_of_bracket first (.inl (by rw [pair]; rfl))) ?_ ?_
    · intro none
      rw [none] at first
      cases first
    · refine LeadsTo.passable ?_ encloses.lt last plain
      exact (leadsTo_first first).trans encloses.reads.leadsTo
  obtain ⟨code', d', reads', related, same⟩ :=
    L.reads inside encloses.reads (encloses.reads.passable last plain)
  refine ⟨d', closing_ok_iff.mpr ⟨code', reads', ?_, opener, closer, ?_, pair, ?_⟩, related⟩
  · rw [same]
    exact encloses.nests
  · exact both.head.trans first
  · exact (L.inStep_of_bracket related last (.inr (isCloser_of_closer? pair).1)).head.trans last

/-! ## §4. Attributes. -/

/-- What leads from related places as far as to related places leads there. -/
theorem advance_to (L : Lockstep t t' R) {d' : Cursor} (h : R c c') (h' : R d d')
    (le : c.offset ≤ d.offset) :
    R (c.advance (d.offset - c.offset)) (c'.advance (d'.offset - c'.offset)) := by
  obtain ⟨here, here'⟩ := L.place h
  obtain ⟨there, there'⟩ := L.place h'
  have reached : c.advance (d.offset - c.offset) = d := by
    rw [there, here, advance_cursor]
    exact congrArg t.cursor (Nat.add_sub_cancel' le)
  have reached' : c'.advance (d'.offset - c'.offset) = d' := by
    rw [there', here', advance_cursor]
    exact congrArg t'.cursor (Nat.add_sub_cancel' ((L.le_iff h h').mp le))
  rw [reached, reached']
  exact h'

/-- Where the text at a place is the same, so is the text at every place in it. -/
theorem take_eq (L : Lockstep t t' R) {x x' : Cursor} {n k : Nat} (h : R c c') (hx : R x x')
    (same : c'.ahead.take n = c.ahead.take n) (le : c.offset ≤ x.offset)
    (shift : x'.offset + c.offset = x.offset + c'.offset) (fits : x.offset + k ≤ c.offset + n) :
    x'.ahead.take k = x.ahead.take k := by
  have ahead (t : Text) (i j : Nat) : (t.cursor (i + j)).ahead = (t.cursor i).ahead.drop j := by
    show t.drop (i + j) = (t.drop i).drop j
    rw [List.drop_drop]
  have cut (u : Text) (j : Nat) (fits : j + k ≤ n) : (u.drop j).take k = ((u.take n).drop j).take k := by
    rw [List.drop_take, List.take_take, Nat.min_eq_left (by omega)]
  obtain ⟨j, hj⟩ : ∃ j, x.offset = c.offset + j := ⟨x.offset - c.offset, by omega⟩
  have here : x.ahead = c.ahead.drop j := by
    rw [(L.place hx).1, (L.place h).1, hj, ahead]
  have there : x'.ahead = c'.ahead.drop j := by
    rw [(L.place hx).2, (L.place h).2, show x'.offset = c'.offset + j from by omega, ahead]
  rw [here, there, cut c.ahead j (by omega), cut c'.ahead j (by omega), same]

end Lockstep

/-- The attributes differ in their offsets only, and those are offsets of related places. -/
structure Attribute.Tracked (R : Cursor → Cursor → Prop) (a a' : Attribute) : Prop where
  path : a'.path = a.path
  text : a'.text = a.text
  start : Marks R a.start a'.start
  stop : Marks R a.stop a'.stop
  args : (a.args = none ∧ a'.args = none)
    ∨ ∃ x x', a.args = some x ∧ a'.args = some x' ∧ x'.text = x.text ∧ Marks R x.start x'.start
      ∧ Marks R (x.start + x.text.length) (x'.start + x'.text.length)

namespace Lockstep

variable {t t' : Text} {R : Cursor → Cursor → Prop} {c c' d head close next : Cursor}
  {a : Attribute} {attrs : List Attribute}

/-- Behind the path of an attribute the two readers go on in the same way: from related places,
or from places where no argument list opens. -/
theorem argsPlace (L : Lockstep t t' R) {head' : Cursor} {n : Nat} (h : R head head')
    (inside : ∀ ch ∈ head.ahead.take n, inScope ch = true)
    (same : head'.ahead.take (n + 1) = head.ahead.take (n + 1))
    (shift : ∀ x x', R x x' → x.offset = head.offset + n → x'.offset = head'.offset + n)
    (toArgs : Trivia false (head.advance n) next) :
    ∃ next', Trivia false (head'.advance n) next'
      ∧ (R next next' ∨ (next.sees "(" = false ∧ next'.sees "(" = false)) := by
  have first : (head'.advance n).ahead.head? = (head.advance n).ahead.head? := by
    have cut := congrArg (·[n]?) same
    simp only [List.getElem?_take, if_pos (Nat.lt_succ_self n)] at cut
    rw [advance_ahead, advance_ahead, List.head?_drop, List.head?_drop, cut]
  have related : ∀ stop rest, (head.advance n).ahead = stop :: rest →
      stop ≠ '#' ∧ stop ≠ '"' ∧ stop ≠ 'r' ∧ stop ≠ 'b' → R (head.advance n) (head'.advance n) := by
    -- the path is read as code, character by character
    intro stop rest eq outside
    rw [advance_ahead] at eq
    have more : n < head.ahead.length := by
      have length := congrArg List.length eq
      rw [List.length_drop, List.length_cons] at length
      omega
    have ahead : head.ahead = head.ahead.take n ++ stop :: rest := by
      rw [← eq, List.take_append_drop]
    obtain ⟨code, reads, hchars⟩ := reads_inScope ahead inside outside
    rw [List.length_take, Nat.min_eq_left (Nat.le_of_lt more)] at reads
    have pass : ∀ x ∈ code, x.1.Passable := by
      intro x mem
      have scope : inScope x.2 = true :=
        inside x.2 (hchars ▸ List.mem_map_of_mem (f := (·.2)) mem)
      obtain ⟨before, after, rfl⟩ := List.append_of_mem mem
      obtain ⟨_, _, first, _⟩ := reads.at_mem
      refine passable_of_first first ⟨?_, ?_⟩
      · intro semicolon
        rw [semicolon] at scope
        cases scope
      · intro brace
        rw [brace] at scope
        cases scope
    obtain ⟨code', q', reads', related, _⟩ := L.reads h reads pass
    have onward := L.advance_to h related (Nat.le_add_right _ _)
    rwa [advance_offset, Nat.add_sub_cancel_left, shift _ _ related rfl, Nat.add_sub_cancel_left] at onward
  obtain ⟨next', toArgs', reached⟩ := L.triviaBehind (.inl first) related toArgs
  exact ⟨next', toArgs', reached.imp_right fun unseen => unseen '(' rfl⟩

/-- Two attributes, from related places to related brackets: the same text stands in both, and related
places in them are equally far behind the start. -/
structure SameExtent (R : Cursor → Cursor → Prop) (c c' close close' : Cursor) : Prop where
  start : R c c'
  inside : R (c.advance 2) (c'.advance 2)
  closing : (c'.advance 1).closing = .ok close'
  stop : R close close'
  behind : R (close.advance 1) (close'.advance 1)
  forward : c.offset + 1 < close.offset
  text : c'.ahead.take (close.offset + 1 - c.offset) = c.ahead.take (close.offset + 1 - c.offset)
  shift : ∀ x x', R x x' → c.offset ≤ x.offset → x.offset ≤ close.offset →
    x'.offset + c.offset = x.offset + c'.offset

theorem exists_sameExtent (L : Lockstep t t' R) (K : KeepsAttributes R) (h : R c c')
    (sees : c.sees "#[" = true) (closing : (c.advance 1).closing = .ok close) :
    ∃ close', SameExtent R c c' close close' := by
  obtain ⟨rest, eq⟩ := sees_iff.mp sees
  have hash : c.ahead.head? = some '#' := by rw [eq]; rfl
  have bracket : (c.advance 1).ahead.head? = some '[' := by rw [advance_ahead, eq]; rfl
  have atBracket := L.behind h hash rfl rfl (passable_of_first hash (by decide))
  have inside := L.behind atBracket bracket rfl rfl (passable_of_first bracket (by decide))
  rw [advance_advance, advance_advance] at inside
  obtain ⟨close', closing', atClose⟩ := L.closing atBracket closing
  obtain ⟨same, shift⟩ := K h sees closing
  obtain ⟨code, encloses⟩ := closing_ok_iff.mp closing
  have last : close.ahead.head? = some ']' := by
    obtain ⟨opener, closer, first, pair, last⟩ := encloses.closes
    rw [bracket] at first
    cases first
    cases pair
    exact last
  have forward := encloses.lt
  rw [advance_offset] at forward
  exact ⟨close', h, inside, closing', atClose,
    L.behind atClose last rfl rfl (passable_of_first last (by decide)), forward, same, shift⟩

namespace SameExtent

variable {x x' y y' close' : Cursor} {k : Nat}

theorem take_eq (E : SameExtent R c c' close close') (L : Lockstep t t' R) (hx : R x x')
    (le : c.offset ≤ x.offset) (least : x.offset ≤ close.offset)
    (fits : x.offset + k ≤ close.offset + 1) : x'.ahead.take k = x.ahead.take k :=
  L.take_eq E.start hx E.text le (E.shift _ _ hx le least) (by omega)

theorem upTo_eq (E : SameExtent R c c' close close') (L : Lockstep t t' R) (hx : R x x') (hy : R y y')
    (le : c.offset ≤ x.offset) (order : x.offset ≤ y.offset) (most : y.offset ≤ close.offset) :
    x'.upTo y'.offset = x.upTo y.offset := by
  have atX := E.shift _ _ hx le (by omega)
  have atY := E.shift _ _ hy (by omega) most
  unfold Cursor.upTo
  rw [show y'.offset - x'.offset = y.offset - x.offset from by omega]
  exact E.take_eq L hx le (by omega) (by omega)

/-- The path is the same, and behind it the readers go on in the same way. -/
theorem path (E : SameExtent R c c' close close') (L : Lockstep t t' R)
    (parts : AttributeParts c a close head next) :
    ∃ head' next', Trivia false (c'.advance 2) head' ∧ head'.upTo close'.offset = head.upTo close.offset
      ∧ head'.ahead.take (Text.pathLength (head.upTo close.offset))
        = head.ahead.take (Text.pathLength (head.upTo close.offset))
      ∧ Trivia false (head'.advance (Text.pathLength (head.upTo close.offset))) next'
      ∧ (R next next' ∨ (next.sees "(" = false ∧ next'.sees "(" = false)) := by
  obtain ⟨before, _, _⟩ := parts.spec
  obtain ⟨head', toPath', atHead⟩ := L.trivia E.inside parts.toPath
  have headGe := parts.toPath.leadsTo.offset_le
  rw [advance_offset] at headGe
  have placeHead := E.shift _ _ atHead (by omega) (by omega)
  obtain ⟨bound, scope⟩ := pathLength_spec (head.upTo close.offset)
  have toArgs := parts.toArgs
  generalize hn : Text.pathLength (head.upTo close.offset) = n at bound scope toArgs
  have long : (head.upTo close.offset).length ≤ close.offset - head.offset := List.length_take_le _ _
  obtain ⟨next', toArgs', reached⟩ := L.argsPlace (n := n) atHead
    (fun ch mem => by
      refine scope ch ?_
      rw [Cursor.upTo, List.take_take, Nat.min_eq_left (by omega)]
      exact mem)
    (E.take_eq L atHead (by omega) (by omega) (by omega))
    (fun x x' hx there => by
      have := E.shift _ _ hx (by omega) (by omega)
      omega) toArgs
  exact ⟨head', next', toPath', E.upTo_eq L atHead E.stop (by omega) (by omega) (Nat.le_refl _),
    E.take_eq L atHead (by omega) (by omega) (by omega), toArgs', reached⟩

/-- The same argument list opens at related places. -/
theorem args (E : SameExtent R c c' close close') (L : Lockstep t t' R) {next' argsClose : Cursor}
    (h : R next next') (le : c.offset ≤ next.offset) (opens : next.sees "(" = true)
    (closing : next.closing = .ok argsClose) (inner : argsClose.offset < close.offset) :
    R (next.advance 1) (next'.advance 1) ∧ ∃ argsClose', next'.closing = .ok argsClose'
      ∧ (next'.advance 1).upTo argsClose'.offset = (next.advance 1).upTo argsClose.offset
      ∧ Marks R (next.offset + 1 + ((next.advance 1).upTo argsClose.offset).length)
          (next'.offset + 1 + ((next'.advance 1).upTo argsClose'.offset).length) := by
  have paren : next.ahead.head? = some '(' := first_of_sees opens
  have atArgs := L.behind h paren rfl rfl (passable_of_first paren (by decide))
  obtain ⟨argsClose', closing', atClose⟩ := L.closing h closing
  obtain ⟨_, encloses⟩ := closing_ok_iff.mp closing
  obtain ⟨_, encloses'⟩ := closing_ok_iff.mp closing'
  have forward := encloses.lt
  have stop {x y : Cursor} {code : List (Cursor × Char)} (h : Encloses x code y) :
      x.offset + 1 + ((x.advance 1).upTo y.offset).length = y.offset := by
    have length := h.reads.leadsTo.length_upTo
    have le := h.reads.offset_le
    rw [advance_offset] at length le
    omega
  refine ⟨atArgs, argsClose', closing', E.upTo_eq L atArgs atClose (by rw [advance_offset]; omega)
    (by rw [advance_offset]; omega) (Nat.le_of_lt inner), ?_⟩
  rw [stop encloses, stop encloses']
  exact .of atClose

end SameExtent

/-- **The same attribute** is read at related places, and leads to related places. -/
theorem readAttribute (L : Lockstep t t' R) (K : KeepsAttributes R) (h : R c c')
    (sees : c.sees "#[" = true) (ha : c.readAttribute = .ok a) :
    ∃ a', c'.readAttribute = .ok a' ∧ a.Tracked R a'
      ∧ R (c.advance (a.stop - a.start)) (c'.advance (a'.stop - a'.start)) := by
  obtain ⟨close, head, next, parts⟩ := readAttribute_ok_iff.mp ha
  obtain ⟨close', E⟩ := L.exists_sameExtent K h sees parts.closing
  have forward := E.forward
  have placeClose := E.shift _ _ E.stop (by omega) (Nat.le_refl _)
  obtain ⟨head', next', toPath', samePath, sameWord, toArgs', reached⟩ := E.path L parts
  have text' : a.text = c'.upTo (close'.offset + 1) := by
    rw [parts.text]
    unfold Cursor.upTo
    rw [show close'.offset + 1 - c'.offset = close.offset + 1 - c.offset from by omega, E.text]
  -- whatever arguments are found, the attribute begins and ends at related places
  have made (args' : Option AttributeArgs) (found : ((next'.offset < close'.offset ∧ next'.sees "(" = true)
        ∧ ∃ argsClose, next'.closing = .ok argsClose
          ∧ args' = some ⟨(next'.advance 1).upTo argsClose.offset, next'.offset + 1⟩)
      ∨ (¬ (next'.offset < close'.offset ∧ next'.sees "(" = true) ∧ args' = none)) :
      c'.readAttribute = .ok ⟨a.path, a.text, c'.offset, close'.offset + 1, args'⟩ := by
    refine readAttribute_ok_iff.mpr ⟨close', head', next', E.closing, toPath', ?_, ?_, ?_, text', rfl, rfl,
      found⟩
    · rw [samePath]
      exact parts.named
    · rw [samePath]
      exact toArgs'
    · rw [samePath, sameWord]
      exact parts.path
  have ends : R (c.advance (a.stop - a.start)) (c'.advance (close'.offset + 1 - c'.offset)) := by
    rw [parts.start, parts.stop]
    exact L.advance_to h E.behind (by rw [advance_offset]; omega)
  have marksStart : Marks R a.start c'.offset := ⟨_, _, h, parts.start.symm, rfl⟩
  have marksStop : Marks R a.stop (close'.offset + 1) := ⟨_, _, E.behind, parts.stop.symm, rfl⟩
  rcases parts.args with ⟨⟨lt, opens⟩, argsClose, closing, argsEq⟩ | ⟨unapplied, argsEq⟩
  · have atNext : R next next' := reached.resolve_right fun none => by
      rw [opens] at none
      cases none.1
    have headGe := parts.toPath.leadsTo.offset_le
    have nextGe := parts.toArgs.leadsTo.offset_le
    rw [advance_offset] at headGe nextGe
    obtain ⟨atArgs, argsClose', closing', sameArgs, ends'⟩ :=
      E.args L atNext (by omega) opens closing (parts.spec.2.2 opens argsClose closing lt)
    rw [sameArgs] at ends'
    have opens' : next'.sees "(" = true := (L.sees_char atNext rfl (by decide)).trans opens
    refine ⟨_, made (some ⟨(next.advance 1).upTo argsClose.offset, next'.offset + 1⟩)
      (.inl ⟨⟨(L.order atNext E.stop).mp lt, opens'⟩, argsClose', closing', ?_⟩), ?_, ends⟩
    · rw [sameArgs]
    · exact ⟨rfl, rfl, marksStart, marksStop,
        .inr ⟨_, _, argsEq, rfl, rfl, ⟨_, _, atArgs, rfl, rfl⟩, ends'⟩⟩
  · refine ⟨_, made none (.inr ⟨?_, rfl⟩), ⟨rfl, rfl, marksStart, marksStop, .inl ⟨argsEq, rfl⟩⟩, ends⟩
    rintro ⟨lt, opens'⟩
    rcases reached with atNext | ⟨_, closed⟩
    · have opens : next.sees "(" = true := (L.sees_char atNext rfl (by decide)).symm.trans opens'
      exact unapplied ⟨(L.order atNext E.stop).mpr lt, opens⟩
    · rw [closed] at opens'
      cases opens'

theorem docComment (L : Lockstep t t' R) (h : R c c') (doc : DocAt c a) :
    ∃ a', DocAt c' a' ∧ a.Tracked R a'
      ∧ R (c.advance (a.stop - a.start)) (c'.advance (a'.stop - a'.start)) := by
  obtain ⟨n, hl, rfl⟩ := doc.exists_lexeme
  obtain ⟨hl', same, related⟩ := L.docText h doc.starts hl
  have read : c'.readDocComment = .ok ⟨"doc", Text.trimEnd (c.ahead.take n), c'.offset,
      c'.offset + (Text.trimEnd (c.ahead.take n)).length, none⟩ := by
    refine bind_ok_iff.mpr ⟨some n, hl', ?_⟩
    show Except.ok _ = Except.ok _
    rw [Option.getD_some, same]
  refine ⟨_, ⟨(L.doc h).trans doc.starts, read⟩, ⟨rfl, rfl, .of h, ?_, .inl ⟨rfl, rfl⟩⟩, ?_⟩
  · exact ⟨_, _, related, rfl, rfl⟩
  · simp only [Nat.add_sub_cancel_left]
    exact related

/-- **The same prelude** is read at related places. -/
theorem prelude (L : Lockstep t t' R) (K : KeepsAttributes R) (h : R c c')
    (hp : Prelude c attrs head) :
    ∃ attrs' head', Prelude c' attrs' head' ∧ R head head'
      ∧ List.Forall₂ (Attribute.Tracked R) attrs attrs' := by
  induction hp generalizing c' with
  | stop ht noDoc noAttribute =>
      refine ⟨[], c', .stop (L.trivium_none h ht) ?_ ?_, h, .nil⟩
      · rw [L.doc h, noDoc]
      · rw [L.sees_attribute h, noAttribute]
  | trivia ht _ ih =>
      obtain ⟨n', here, related⟩ := L.trivium_some h ht
      obtain ⟨attrs', head', rest, there, all⟩ := ih related
      exact ⟨attrs', head', .trivia here rest, there, all⟩
  | doc ht doc _ ih =>
      obtain ⟨a', doc', same, related⟩ := L.docComment h doc
      obtain ⟨attrs', head', rest, there, all⟩ := ih related
      exact ⟨a' :: attrs', head', .doc (L.trivium_none h ht) doc' rest, there, .cons same all⟩
  | bracketed ht noDoc sees read _ ih =>
      obtain ⟨a', read', same, related⟩ := L.readAttribute K h sees read
      obtain ⟨attrs', head', rest, there, all⟩ := ih related
      refine ⟨a' :: attrs', head', .bracketed (L.trivium_none h ht) ?_ ?_ read' rest, there,
        .cons same all⟩
      · rw [L.doc h, noDoc]
      · rw [L.sees_attribute h, sees]

/-! ## §5. Declaration heads. -/

theorem identifier?_none (L : Lockstep t t' R) (h : R c c') (noWord : c.identifier? = none) :
    c'.identifier? = none := by
  rcases L.inStep h with both | ⟨_, _, _, skip', _⟩
  swap
  · exact identifier?_of_trivium skip'
  cases hc : c'.identifier? with
  | none => rfl
  | some found =>
      obtain ⟨w, after⟩ := found
      obtain ⟨ch, first, start⟩ := isNameStart_of_identifier? hc
      rw [both.head] at first
      exact absurd noWord (identifier?_ne_none first start)

/-- The same word stands at both places, or none at either. -/
theorem word_iff (L : Lockstep t t' R) (h : R c c') (w : Text) :
    (∃ after', c'.identifier? = some (w, after')) ↔ ∃ after, c.identifier? = some (w, after) := by
  constructor
  · rintro ⟨after', found'⟩
    cases hc : c.identifier? with
    | none =>
        rw [L.identifier?_none h hc] at found'
        cases found'
    | some found =>
        obtain ⟨v, after⟩ := found
        obtain ⟨after'', same, _⟩ := L.word h hc
        rw [same] at found'
        cases found'
        exact ⟨after, rfl⟩
  · rintro ⟨after, found⟩
    obtain ⟨after', found', _⟩ := L.word h found
    exact ⟨after', found'⟩

theorem startsKeyword (L : Lockstep t t' R) (h : R c c') (keywords : List Text) :
    c'.startsKeyword keywords = c.startsKeyword keywords := by
  have any (d : Cursor) : (Text.identifier? d.ahead).any (keywords.contains ·) = true
      ↔ ∃ w ∈ keywords, ∃ after, d.identifier? = some (w, after) := by
    unfold Cursor.identifier?
    cases Text.identifier? d.ahead with
    | none => simp
    | some w => simp
  rcases L.inStep h with both | ⟨_, _, skip, skip', _⟩
  swap
  · rw [startsKeyword_of_trivium skip, startsKeyword_of_trivium skip']
  by_cases atEnd : c.ahead = []
  · rw [startsKeyword_of_end atEnd, startsKeyword_of_end (L.ahead_eq_nil h atEnd)]
  unfold Cursor.startsKeyword
  rw [both.start atEnd]
  congr 1
  rw [Bool.eq_iff_iff, any, any]
  simp only [L.word_iff h]

theorem mayStartItem (L : Lockstep t t' R) (h : R c c') : c'.mayStartItem = c.mayStartItem := by
  unfold Cursor.mayStartItem
  rw [L.doc h, L.sees_attribute h, L.startsKeyword h]

/-- The same visibility is read at related places. -/
theorem visibility {v : Text} (L : Lockstep t t' R) (h : R c c') (hv : Visibility c v d) :
    ∃ d', Visibility c' v d' ∧ R d d' := by
  cases hv with
  | none other =>
      refine ⟨c', .none fun after' found' => ?_, h⟩
      obtain ⟨after, found⟩ := (L.word_iff h _).mp ⟨after', found'⟩
      exact other after found
  | @bare after scope pub toScope noScope =>
      obtain ⟨after', pub', _, related⟩ := L.word h pub
      obtain ⟨_, there⟩ := related (pub_plain pub)
      obtain ⟨scope', toScope', atScope⟩ := L.trivia there toScope
      exact ⟨after', .bare pub' toScope' ((L.scope atScope).trans noScope), there⟩
  | @within after scope n pub toScope found =>
      obtain ⟨after', pub', _, related⟩ := L.word h pub
      obtain ⟨_, there⟩ := related (pub_plain pub)
      obtain ⟨scope', toScope', atScope⟩ := L.trivia there toScope
      obtain ⟨same, behind⟩ := L.scopeText atScope found
      refine ⟨_, ?_, behind⟩
      rw [← same]
      exact .within pub' toScope' ((L.scope atScope).trans found)

theorem headAt {v : Text} {behind place : Cursor} (L : Lockstep t t' R) (K : KeepsAttributes R)
    (h : R c c') (hd : HeadAt c attrs head v behind place) :
    ∃ attrs' head' behind' place', HeadAt c' attrs' head' v behind' place' ∧ R place place'
      ∧ List.Forall₂ (Attribute.Tracked R) attrs attrs' := by
  obtain ⟨attrs', head', prelude', atHead, all⟩ := L.prelude K h hd.prelude
  obtain ⟨behind', visibility', atBehind⟩ := L.visibility atHead hd.visibility
  obtain ⟨place', toKeyword', atPlace⟩ := L.trivia atBehind hd.toKeyword
  exact ⟨attrs', head', behind', place', ⟨prelude', visibility', toKeyword'⟩, atPlace, all⟩

end Lockstep

/-- The declarations differ in their offsets only, and those are offsets of related places. -/
structure Item.Tracked (R : Cursor → Cursor → Prop) (item item' : Item) : Prop where
  kind : item'.kind = item.kind
  name : item'.name = item.name
  visibility : item'.visibility = item.visibility
  module : item'.module = item.module
  attrs : List.Forall₂ (Attribute.Tracked R) item.attrs item'.attrs
  start : Marks R item.start item'.start
  bodyIndex : Marks R item.bodyIndex item'.bodyIndex

namespace Lockstep

variable {t t' : Text} {R : Cursor → Cursor → Prop} {c c' d head : Cursor} {item : Item}

/-- **The same head** is read at related places, up to its name; and the declarations differ in
their offsets only, if the places behind the name are related. -/
theorem itemAt {place behind name after : Cursor} (L : Lockstep t t' R) (K : KeepsAttributes R)
    (h : R c c') (hi : ItemAt c item head place behind name after) :
    ∃ item' head' place' behind' name' after', ItemAt c' item' head' place' behind' name' after'
      ∧ item'.name = item.name ∧ item'.module = item.module ∧ R name name'
      ∧ (R after after' → item.Tracked R item') := by
  obtain ⟨_, hd⟩ := hi.head
  obtain ⟨attrs', head', afterVisibility', place', hd', atPlace, all⟩ := L.headAt K h hd
  obtain ⟨behind', keyword', _, related⟩ := L.word atPlace hi.keyword
  obtain ⟨_, atBehind⟩ := related (keyword_plain hi.keyword)
  obtain ⟨name', toName', atName⟩ := L.trivia atBehind hi.toName
  obtain ⟨after', named', _⟩ := L.word atName hi.name
  refine ⟨⟨item.kind, item.name, attrs', item.visibility, c'.offset, after'.offset, item.module⟩,
    head', place', behind', name', after', ⟨⟨_, hd'⟩, keyword', toName', named', rfl, rfl⟩,
    rfl, rfl, atName, fun atAfter => ⟨rfl, rfl, rfl, rfl, all, ?_, ?_⟩⟩
  · rw [hi.start]
    exact .of h
  · rw [hi.bodyIndex]
    exact .of atAfter

/-- Names in which no raw string opens are passed to related places. -/
theorem passesNames (L : Lockstep t t' R) (plain : ∀ item, c.PlainlyNamed item) : c.PassesNames R := by
  intro item head place behind name after hi name' after' atName named'
  obtain ⟨after'', named, _, onward⟩ := L.word atName hi.name
  rw [named'] at named
  cases named
  exact (onward (plain item hi)).2

/-- What the reader of a head finds at related places, if names lead to related places. -/
theorem headRead {module : List Text} {item? : Option Item} {next : Cursor} (L : Lockstep t t' R)
    (K : KeepsAttributes R) (h : R c c') (starts : c.mayStartItem = true)
    (passes : c.PassesNames R) (hr : HeadRead c module item? next) :
    ∃ item?' next', HeadRead c' module item?' next' ∧ R next next'
      ∧ List.Forall₂ (Item.Tracked R) item?.toList item?'.toList := by
  cases hr with
  | @item item head place behind name after hi inside =>
      obtain ⟨item', _, _, _, _, after', hi', sameName, inside', atName, tracked⟩ := L.itemAt K h hi
      have named' := hi'.name
      rw [sameName] at named'
      have atAfter := passes hi atName named'
      exact ⟨some item', after', .item hi' (inside'.trans inside), atAfter, .cons (tracked atAfter) .nil⟩
  | nameless hd keyword toName noName =>
      obtain ⟨_, _, _, place', hd', atPlace, _⟩ := L.headAt K h hd
      obtain ⟨behind', keyword', _, related⟩ := L.word atPlace keyword
      obtain ⟨_, atBehind⟩ := related (keyword_plain keyword)
      obtain ⟨name', toName', atName⟩ := L.trivia atBehind toName
      exact ⟨none, behind', .nameless hd' keyword' toName' (L.identifier?_none atName noName),
        atBehind, .nil⟩
  | @other attrs v head behind place hd noKeyword =>
      obtain ⟨attrs', head', behind', place', hd', atPlace, _⟩ := L.headAt K h hd
      have noKeyword' (kind : DeclKind) (behind : Cursor) :
          place'.identifier? ≠ some (kind.keyword, behind) := by
        intro keyword
        obtain ⟨after, found⟩ := (L.word_iff atPlace _).mp ⟨behind, keyword⟩
        exact noKeyword kind after found
      refine ⟨none, _, .other hd' noKeyword', ?_, .nil⟩
      by_cases stuck : place.offset ≤ c.offset
      · rw [if_pos stuck, if_pos ((L.le_iff atPlace h).mp stuck)]
        -- nothing has been read, so a keyword stands here
        have toPlace := (hd.visibility.leadsTo.trans hd.toKeyword.leadsTo).offset_le
        have start := hd.prelude.leadsTo.offset_le
        have same : head = c := hd.prelude.leadsTo.eq_of_offset (.refl c) (by omega)
        obtain ⟨_, noDoc, noAttribute⟩ := hd.prelude.ends
        rw [same] at noDoc noAttribute
        obtain ⟨ch, first, word, noOpener⟩ := exists_keyword_char starts noDoc noAttribute
        have solid := not_isBlank_of_isWord word
        have noSlash : ch ≠ '/' := by
          rintro rfl
          cases word
        refine (L.inStep_of_solid h first solid noSlash).next
          (lexeme?_of_isWord first (.inl word) noOpener) ?_ (passable_of_first first ⟨?_, ?_⟩)
        · intro none
          rw [none] at first
          cases first
        · rintro rfl
          cases word
        · rintro rfl
          cases word
      · rw [if_neg stuck, if_neg fun stuck' => stuck ((L.le_iff atPlace h).mpr stuck')]
        exact atPlace

end Lockstep

/-! ## §6. Both ways. -/

namespace Lockstep

variable {t t' : Text} {R : Cursor → Cursor → Prop} {c c' : Cursor}

/-- Where attributes are kept from one text to the other, they are kept the other way too. -/
theorem keepsAttributes_flip (L : Lockstep t t' R) (L' : Lockstep t' t (flip R))
    (K : KeepsAttributes R) : KeepsAttributes (flip R) := by
  intro c' c d' h sees hd'
  have h : R c c' := h
  rw [L.sees_attribute h] at sees
  obtain ⟨rest, eq⟩ := sees_iff.mp sees
  have hash : c.ahead.head? = some '#' := by rw [eq]; rfl
  have atBracket := L.behind h hash rfl rfl (passable_of_first hash (by decide))
  obtain ⟨d, hd, related⟩ := L'.closing atBracket hd'
  have related : R d d' := related
  obtain ⟨same, shift⟩ := K h sees hd
  obtain ⟨_, encloses⟩ := closing_ok_iff.mp hd
  have forward := encloses.lt
  rw [advance_offset] at forward
  have place := shift d d' related (by omega) (Nat.le_refl _)
  refine ⟨?_, fun x' x hx ge le => ?_⟩
  · rw [show d'.offset + 1 - c'.offset = d.offset + 1 - c.offset from by omega, same]
  · have hx : R x x' := hx
    exact (shift x x' hx ((L.le_iff h hx).mpr ge) ((L.le_iff hx related).mpr le)).symm

/-- Where no raw string opens in the name of a declaration, none does at a related place. -/
theorem plainlyNamed (L : Lockstep t t' R) (L' : Lockstep t' t (flip R))
    (K' : KeepsAttributes (flip R)) (h : R c c') (plain : ∀ item, c.PlainlyNamed item) :
    ∀ item, c'.PlainlyNamed item := by
  intro item' head' place' behind' name' after' hi'
  obtain ⟨item, _, _, _, name, after, hi, sameName, _, atName, _⟩ := L'.itemAt K' h hi'
  have atName : R name name' := atName
  obtain ⟨_, named', _, onward⟩ := L.word atName hi.name
  rw [← sameName]
  exact (onward (plain item hi)).1

end Lockstep

end EnumExtract
