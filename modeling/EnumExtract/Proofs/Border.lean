/-
  EnumExtract.Proofs.Border
  ────────────────────────────────
  Two texts with the same beginning.

  The texts are the same up to a blank and through it.  A place at or right
  behind that blank where the reading of the first text comes by is a border:
  the second text is read in step with the first up to there.

      t    ───────────── ␣ ┊ …
      t'   ───────────── ␣ ┊ …

  Main results:
    • `InStep.of_same`      places with the same text ahead are in step,
    • `Border.lexeme`       a lexeme before the border is one in both texts,
    • `Border.inStep`       all places before the border are in step.
-/
import EnumExtract.Proofs.Appending
import EnumExtract.Proofs.Lockstep

namespace EnumExtract

open Cursor

/-! ## §1. The same text ahead. -/

namespace Cursor

variable {R : Cursor → Cursor → Prop} {o c c' : Cursor} {m : Int}

section Same

variable (ahead : c'.ahead = c.ahead)
include ahead

variable (start : c'.atWordStart = c.atWordStart)
include start

theorem rawOpener?_of_same : c'.rawOpener? = c.rawOpener? := by
  unfold Cursor.rawOpener?
  rw [start, ahead]

theorem literal?_of_same {r : Option Nat} (h : c.literal? = .ok r) : c'.literal? = .ok r := by
  unfold literal? at h ⊢
  rw [rawOpener?_of_same ahead start, ahead]
  split at h
  next =>
    split at h
    next => exact h
    next => cases h
  next =>
    split at h
    next =>
      split at h
      next => exact h
      next => cases h
    next => exact h
    next => exact h

theorem lexeme?_of_same {r : Option Nat} (h : c.lexeme? = .ok r) : c'.lexeme? = .ok r := by
  unfold lexeme? at h ⊢
  obtain ⟨comment, hc, h⟩ := bind_ok_iff.mp h
  refine bind_ok_iff.mpr ⟨comment, comment?_of_same ahead hc, ?_⟩
  split at h
  next => exact h
  next => exact literal?_of_same ahead start h

theorem atWordStart_advance_of_same (k : Nat) : (c'.advance k).atWordStart = (c.advance k).atWordStart := by
  unfold atWordStart at start ⊢
  show Option.all _ (if k = 0 then c'.before else c'.ahead[k - 1]?)
    = Option.all _ (if k = 0 then c.before else c.ahead[k - 1]?)
  split
  · exact start
  · rw [ahead]

/-- **Places with the same text ahead are in step**, if a word starts at both or at neither. -/
theorem InStep.of_same (onward : ∀ n ≤ c.ahead.length, R (c.advance n) (c'.advance n)) :
    c.InStep R c' where
  head := by rw [ahead]
  start _ := start
  comment n h := ⟨n, comment?_of_same ahead h⟩
  noComment := comment?_of_same ahead
  lexeme n h := ⟨n, lexeme?_of_same ahead start h, onward n (lexeme?_bounds h).2⟩
  noLexeme := lexeme?_of_same ahead start
  next _ more _ := onward 1 (List.length_pos_iff.mpr more)
  doc := by rw [ahead]
  docText n _ h := by
    refine ⟨lexeme?_of_same ahead start h, by rw [ahead], onward _ ?_⟩
    obtain ⟨b, eq, _⟩ := Text.exists_trimEnd_append (c.ahead.take n)
    have length := congrArg List.length eq
    rw [List.length_append, List.length_take] at length
    omega
  sees := by
    unfold Cursor.sees
    rw [ahead]
  word w after h := by
    obtain ⟨hw, rfl⟩ := identifier?_eq_some h
    refine ⟨c'.advance w.length, by rw [identifier?, ahead, hw]; rfl, ?_, fun plain => ⟨?_, ?_⟩⟩
    · rw [advance_ahead, advance_ahead, ahead]
      exact .inl rfl
    · intro k lt
      rw [← plain k lt]
      exact rawOpener?_of_same (by rw [advance_ahead, advance_ahead, ahead])
        (atWordStart_advance_of_same ahead start k)
    · obtain ⟨rest, eq, _⟩ := Text.identifier?_some hw
      exact onward _ (by rw [eq, List.length_append]; omega)
  scope := by rw [ahead]
  scopeText n h := by
    obtain ⟨inner, rest, eq, rfl, _⟩ := scopeLength?_some h
    refine ⟨by rw [ahead], onward _ ?_⟩
    rw [eq]
    simp

end Same

/-- Places at the same character are in step, if nothing that is read begins with it. -/
theorem InStep.of_char {ch : Char} (first : c.ahead.head? = some ch) (first' : c'.ahead.head? = some ch)
    (plain : c.lexeme? = .ok none) (plain' : c'.lexeme? = .ok none) (noWord : isWord ch = false)
    (hash : ch ≠ '#') (paren : ch ≠ '(') (start : c'.atWordStart = c.atWordStart)
    (next : c.Passable → R (c.advance 1) (c'.advance 1)) : c.InStep R c' := by
  have noComment := (lexeme?_none_iff.mp plain).1
  have noComment' := (lexeme?_none_iff.mp plain').1
  have noDoc {x : Cursor} (h : x.comment? = .ok none) : startsDocComment x.ahead = false :=
    Bool.eq_false_iff.mpr fun doc => comment?_of_startsDocComment doc h
  have unseen {x : Cursor} (first : x.ahead.head? = some ch) : x.sees "#[" = false := by
    refine Bool.eq_false_iff.mpr fun sees => ?_
    obtain ⟨rest, eq⟩ := sees_iff.mp sees
    rw [eq] at first
    exact hash (Option.some.inj first).symm
  have noScope {x : Cursor} (first : x.ahead.head? = some ch) : scopeLength? x.ahead = none := by
    cases h : scopeLength? x.ahead with
    | none => rfl
    | some n =>
        obtain ⟨inner, rest, eq, _⟩ := scopeLength?_some h
        rw [eq] at first
        exact absurd (Option.some.inj first).symm paren
  refine ⟨first'.trans first.symm, fun _ => start, fun n h => ?_, fun _ => noComment', fun n h => ?_,
    fun _ => plain', fun _ _ => next, ?_, fun n doc => ?_, ?_, fun w after h => ?_, ?_, fun n h => ?_⟩
  · rw [noComment] at h
    cases h
  · rw [plain] at h
    cases h
  · rw [noDoc noComment, noDoc noComment']
  · rw [noDoc noComment] at doc
    cases doc
  · rw [unseen first, unseen first']
  · obtain ⟨ch', first'', word⟩ := isWord_of_identifier? h
    rw [first] at first''
    cases first''
    rw [noWord] at word
    cases word
  · rw [noScope first, noScope first']
  · rw [noScope first] at h
    cases h

/-- Places at the same blank are in step. -/
theorem InStep.of_blank {ch : Char} (first : c.ahead.head? = some ch)
    (first' : c'.ahead.head? = some ch) (blank : isBlank ch = true)
    (start : c'.atWordStart = c.atWordStart) (next : R (c.advance 1) (c'.advance 1)) :
    c.InStep R c' := by
  have ne (other : Char) (plain : isBlank other = false) : ch ≠ other := by
    rintro rfl
    rw [plain] at blank
    cases blank
  refine .of_char first first' (lexeme?_of_blank first blank) (lexeme?_of_blank first' blank) ?_
    (ne '#' rfl) (ne '(' rfl) start fun _ => next
  refine Bool.eq_false_iff.mpr fun word => ?_
  rw [not_isBlank_of_isWord word] at blank
  cases blank

/-- One character on, a place is still near the reading. -/
theorem Near.next (near : Near o c m) (plain : c.lexeme? = .ok none) (more : c.ahead ≠ []) :
    ∃ k, Near o (c.advance 1) k := by
  obtain ⟨ch, rest, eq⟩ := List.exists_cons_of_ne_nil more
  have first : c.ahead.head? = some ch := by rw [eq, List.head?_cons]
  by_cases blank : isBlank ch = true
  · have trivium : c.trivium? false = .ok (some 1) := trivium?_of_isBlank first blank
    exact ⟨m, (near.trivium trivium).1⟩
  · have code : CodeAt o c ch m := by
      refine ⟨near.level fun ch' first' => ?_, plain, first⟩
      rw [first] at first'
      cases first'
      exact Bool.eq_false_iff.mpr blank
    exact ⟨_, code.next.near⟩

/-- A lexeme starts at a place of the reading only. -/
theorem Near.level_of_lexeme {n : Nat} (near : Near o c m) (hl : c.lexeme? = .ok (some n)) :
    Level o c m := by
  refine near.level fun ch first => Bool.eq_false_iff.mpr fun blank => ?_
  rw [lexeme?_of_blank first blank] at hl
  cases hl

end Cursor

/-! ## §2. Borders. -/

/-- The texts are the same through the blank at offset `e`, and what is no character in front of
it in the first text is none in the second. -/
structure Shared (e : Nat) (t t' : Text) : Prop where
  parts : ∃ u w s s', t = u ++ w :: s ∧ t' = u ++ w :: s' ∧ u.length = e ∧ isBlank w = true
    ∧ Fence u (w :: s) (w :: s')

/-- Up to the offset `i`, which the reading of the first text comes by, the texts are the same; and
the same character stands there, one that belongs to no word and no scope. -/
structure Border (e i : Nat) (t t' : Text) : Prop extends Shared e t t' where
  le : i ≤ e + 1
  level : ∃ m, Level (t.cursor 0) (t.cursor i) m
  stop : ∃ x, (t.cursor i).ahead.head? = some x ∧ (t'.cursor i).ahead.head? = some x
    ∧ inScope x = false ∧ x ≠ '#' ∧ x ≠ ')'

/-- Places at the same offset before a border, near the reading of the first text. -/
def Before (i : Nat) (t t' : Text) (c c' : Cursor) : Prop :=
  ∃ j < i, c = t.cursor j ∧ c' = t'.cursor j ∧ ∃ m, Near (t.cursor 0) c m

variable {e i j k n : Nat} {t t' : Text} {m : Int}

namespace Shared

theorem agree (S : Shared e t t') (le : j ≤ e) : Agree e e (t.cursor j) (t'.cursor j) := by
  obtain ⟨u, w, s, s', rfl, rfl, rfl, _, fence⟩ := S.parts
  refine ⟨?_, u.drop j, w :: s, w :: s', List.drop_append_of_le_length le,
    List.drop_append_of_le_length le, ?_, ?_, fence.drop j⟩
  · show (if j = 0 then none else (u ++ w :: s')[j - 1]?) = if j = 0 then none else (u ++ w :: s)[j - 1]?
    split
    · rfl
    · rw [List.getElem?_append_left (by omega), List.getElem?_append_left (by omega)]
  · show j + (u.drop j).length = u.length
    rw [List.length_drop]
    omega
  · show j + (u.drop j).length = u.length
    rw [List.length_drop]
    omega

/-- What stands ahead of a place before the blank. -/
theorem ahead (S : Shared e t t') (le : j ≤ e) : ∃ u w s s', (t.cursor j).ahead = u ++ w :: s
    ∧ (t'.cursor j).ahead = u ++ w :: s' ∧ j + u.length = e ∧ isBlank w = true := by
  obtain ⟨u, w, s, s', rfl, rfl, rfl, blank, _⟩ := S.parts
  refine ⟨u.drop j, w, s, s', List.drop_append_of_le_length le, List.drop_append_of_le_length le, ?_, blank⟩
  rw [List.length_drop]
  omega

theorem take (S : Shared e t t') (le : j ≤ e) (fits : j + k ≤ e + 1) :
    (t'.cursor j).ahead.take k = (t.cursor j).ahead.take k := by
  obtain ⟨u, w, s, s', eq, eq', len, _⟩ := S.ahead le
  have cut (s : Text) : u ++ w :: s = (u ++ [w]) ++ s := by simp
  have long : k ≤ (u ++ [w]).length := by
    rw [List.length_append, List.length_singleton]
    omega
  rw [eq, eq', cut s, cut s', List.take_append_of_le_length long, List.take_append_of_le_length long]

/-- The blank at the end. -/
theorem blank (S : Shared e t t') : ∃ w, (t.cursor e).ahead.head? = some w
    ∧ (t'.cursor e).ahead.head? = some w ∧ isBlank w = true := by
  obtain ⟨u, w, s, s', eq, eq', len, blank⟩ := S.ahead (Nat.le_refl e)
  obtain rfl : u = [] := List.length_eq_zero_iff.mp (by omega)
  exact ⟨w, by rw [eq]; rfl, by rw [eq']; rfl, blank⟩

/-- **A lexeme in the common part is one of both texts.**  It may end with the blank. -/
theorem lexeme (S : Shared e t t') (le : j ≤ e) (fits : j + n ≤ e + 1)
    (more : n < (t.cursor j).ahead.length) (hl : (t.cursor j).lexeme? = .ok (some n)) :
    (t'.cursor j).lexeme? = .ok (some n) := by
  have agree := S.agree le
  by_cases inside : j + n ≤ e
  · exact agree.lexeme?_some hl inside
  · have long : 1 < n := by
      rcases Nat.lt_or_ge 1 n with long | short
      · exact long
      · exfalso
        obtain ⟨w, first, _, blank⟩ := S.blank
        rw [show j = e from by omega, lexeme?_of_blank first blank] at hl
        cases hl
    exact lexeme?_of_take hl long more (S.take le fits) agree.atWordStart agree.rawOpener?_none

theorem startsWith (S : Shared e t t') (le : j ≤ e) (word : Text)
    (plain : ∀ ch ∈ word, isBlank ch = false) :
    Text.startsWith (t'.cursor j).ahead word = Text.startsWith (t.cursor j).ahead word := by
  obtain ⟨u, w, s, s', eq, eq', _, blank⟩ := S.ahead le
  have absent : w ∉ word := by
    intro mem
    rw [plain w mem] at blank
    cases blank
  rw [eq, eq', startsWith_stop u s absent, startsWith_stop u s' absent]

theorem startsDocComment (S : Shared e t t') (le : j ≤ e) :
    startsDocComment (t'.cursor j).ahead = startsDocComment (t.cursor j).ahead := by
  unfold EnumExtract.startsDocComment
  rw [S.startsWith le "///" (by decide), S.startsWith le "////" (by decide),
    S.startsWith le "/**" (by decide), S.startsWith le "/***" (by decide),
    S.startsWith le "/**/" (by decide)]

end Shared

namespace Border

/-- The border is in front of the end of both texts. -/
theorem lt_length (B : Border e i t t') : i < t.length ∧ i < t'.length := by
  have lt {t : Text} {x : Char} (first : (t.cursor i).ahead.head? = some x) : i < t.length := by
    obtain ⟨rest, eq⟩ := List.head?_eq_some_iff.mp first
    have length := congrArg List.length eq
    simp only [Text.cursor, List.length_drop, List.length_cons] at length
    omega
  obtain ⟨x, first, first', _⟩ := B.stop
  exact ⟨lt first, lt first'⟩

/-- A lexeme that starts before a border ends there or before. -/
theorem lexeme_le (B : Border e i t t') (lt : j < i) (near : Near (t.cursor 0) (t.cursor j) m)
    (hl : (t.cursor j).lexeme? = .ok (some n)) : j + n ≤ i := by
  obtain ⟨k, level⟩ := B.level
  exact (near.level_of_lexeme hl).lexeme_le level lt hl

theorem lexeme (B : Border e i t t') (lt : j < i) (near : Near (t.cursor 0) (t.cursor j) m)
    (hl : (t.cursor j).lexeme? = .ok (some n)) : (t'.cursor j).lexeme? = .ok (some n) := by
  have le := B.le
  have bound := B.lexeme_le lt near hl
  have length := B.lt_length
  refine B.toShared.lexeme (by omega) (by omega) ?_ hl
  show n < (t.drop j).length
  rw [List.length_drop]
  omega

/-- The character at a place is the one that stands as far ahead of an earlier place. -/
theorem getElem?_of_first {x : Char} (le : j ≤ k) (first : (t.cursor k).ahead.head? = some x) :
    (t.cursor j).ahead[k - j]? = some x := by
  rw [← first, List.head?_eq_getElem?]
  show (t.drop j)[k - j]? = (t.drop k)[0]?
  rw [List.getElem?_drop, List.getElem?_drop]
  congr 1
  omega

/-- A scope that starts before a border ends there or before. -/
theorem scope_le (B : Border e i t t') (lt : j < i) (scope : scopeLength? (t.cursor j).ahead = some n) :
    j + n ≤ i := by
  obtain ⟨inner, rest, eq, rfl, inside⟩ := scopeLength?_some scope
  obtain ⟨x, first, _, outside, _, paren⟩ := B.stop
  have there := getElem?_of_first (Nat.le_of_lt lt) first
  rcases Nat.lt_or_ge i (j + (inner.length + 2)) with past | ok
  · exfalso
    obtain ⟨k, hk⟩ : ∃ k, i - j = k + 1 := ⟨i - j - 1, by omega⟩
    have whole : (t.cursor j).ahead = '(' :: (inner ++ ')' :: rest) := eq
    rw [whole, hk, List.getElem?_cons_succ] at there
    rcases Nat.lt_or_ge k inner.length with before | last
    · rw [List.getElem?_append_left before] at there
      rw [inside x (List.mem_of_getElem? there)] at outside
      cases outside
    · rw [List.getElem?_append_right last, show k - inner.length = 0 from by omega] at there
      exact paren (Option.some.inj there).symm
  · exact ok

/-- A word that starts before a border ends there or before, and not behind the blank. -/
theorem word_le (B : Border e i t t') (lt : j < i) {w : Text} {after : Cursor}
    (hw : (t.cursor j).identifier? = some (w, after)) : j + w.length ≤ i ∧ j + w.length ≤ e := by
  have le := B.le
  obtain ⟨found, _⟩ := identifier?_eq_some hw
  obtain ⟨rest, eq, isIdentifier, _⟩ := Text.identifier?_some found
  -- no character of a word stands at the border or at the blank
  have past {k : Nat} {ch : Char} (ge : j ≤ k) (there : (t.cursor k).ahead.head? = some ch)
      (plain : isWord ch = false) (hash : ch ≠ '#') : j + w.length ≤ k := by
    rcases Nat.lt_or_ge k (j + w.length) with inside | ok
    · exfalso
      have at' := getElem?_of_first ge there
      rw [eq, List.getElem?_append_left (by omega)] at at'
      rcases isIdentifier.isWord ch (List.mem_of_getElem? at') with word | same
      · rw [plain] at word
        cases word
      · exact hash same
    · exact ok
  obtain ⟨x, first, _, outside, hash, _⟩ := B.stop
  obtain ⟨b, blankAt, _, blank⟩ := B.toShared.blank
  refine ⟨past (by omega) first ?_ hash, past (by omega) blankAt ?_ ?_⟩
  · unfold inScope at outside
    rw [Bool.or_eq_false_iff, Bool.or_eq_false_iff] at outside
    exact outside.1.1
  · exact Bool.eq_false_iff.mpr fun word => by
      rw [not_isBlank_of_isWord word] at blank
      cases blank
  · rintro rfl
    cases blank

/-- Where no lexeme starts before a border, none does in the other text, and the same character stands
there. -/
theorem noLexeme (B : Border e i t t') (lt : j < i) (hl : (t.cursor j).lexeme? = .ok none) :
    (t'.cursor j).lexeme? = .ok none ∧ (t'.cursor j).ahead.head? = (t.cursor j).ahead.head? := by
  have le := B.le
  rcases Nat.lt_or_ge j e with inside | wall
  · have agree := B.toShared.agree (Nat.le_of_lt inside)
    exact ⟨agree.lexeme?_none inside hl, agree.head? inside⟩
  · obtain ⟨w, first, first', blank⟩ := B.toShared.blank
    rw [show j = e from by omega]
    exact ⟨lexeme?_of_blank first' blank, first'.trans first.symm⟩

/-- What is read up to the border is read in both texts. -/
theorem reads {c d : Cursor} {code : List (Cursor × Char)} (B : Border e i t t') (r : Reads c code d)
    (here : c = t.cursor c.offset) (level : Level (t.cursor 0) c m) (le : d.offset ≤ i) :
    ∃ code', Reads (t'.cursor c.offset) code' (t'.cursor d.offset) ∧ chars code' = chars code := by
  induction r generalizing m with
  | here c => exact ⟨[], .here _, rfl⟩
  | @lexeme c d code n hl rest ih =>
      have pos := (lexeme?_bounds hl).1
      have forward := rest.offset_le
      rw [advance_offset] at forward
      obtain ⟨code', reads, same⟩ := ih (by rw [advance_offset, ← advance_cursor, ← here])
        (level.reads (.lexeme hl (.here _))) le
      rw [advance_offset] at reads
      rw [here] at hl level
      refine ⟨code', .lexeme (B.lexeme (by omega) level.near hl) ?_, same⟩
      rw [advance_cursor]
      exact reads
  | @char c d code ch hl first rest ih =>
      have forward := rest.offset_le
      rw [advance_offset] at forward
      obtain ⟨code', reads, same⟩ := ih (by rw [advance_offset, ← advance_cursor, ← here])
        (CodeAt.next ⟨level, hl, first⟩) le
      rw [advance_offset] at reads
      rw [here] at hl first
      obtain ⟨hl', first'⟩ := B.noLexeme (by omega) hl
      refine ⟨(t'.cursor c.offset, ch) :: code', .char hl' (first'.trans first) ?_,
        by rw [chars_cons, chars_cons, same]⟩
      rw [advance_cursor]
      exact reads

/-- A place of the reading up to the border is one in both texts. -/
theorem level_of (B : Border e i t t') (le : j ≤ i) (level : Level (t.cursor 0) (t.cursor j) m) :
    Level (t'.cursor 0) (t'.cursor j) m := by
  obtain ⟨code, reads, rfl⟩ := level
  obtain ⟨code', reads', same⟩ := B.reads reads rfl (.start _) le
  exact ⟨code', reads', by rw [same]⟩

/-- With the other text first, it is still a border. -/
theorem symm (B : Border e i t t') (S : Shared e t' t) : Border e i t' t := by
  obtain ⟨m, level⟩ := B.level
  obtain ⟨x, first, first', other⟩ := B.stop
  exact ⟨S, B.le, ⟨m, B.level_of (Nat.le_refl i) level⟩, x, first', first, other⟩

/-- Places before the border are so for both readings. -/
theorem before_symm {c c' : Cursor} (B : Border e i t t') (h : Before i t t' c c') :
    Before i t' t c' c := by
  obtain ⟨j, lt, rfl, rfl, m, d, level, _, onward, blanks⟩ := h
  obtain ⟨x, first, _, outside, _⟩ := B.stop
  have le := onward.offset_le
  have here : (t.cursor j).offset = j := rfl
  -- blanks do not lead past the border
  have within : d.offset ≤ i := by
    rcases Nat.lt_or_ge i d.offset with past | ok
    · exfalso
      have there := getElem?_of_first (Nat.le_of_lt lt) first
      have mem : x ∈ (t.cursor j).upTo d.offset := by
        refine List.mem_of_getElem? (i := i - j) ?_
        rw [upTo, List.getElem?_take_of_lt (by omega), there]
      rw [inScope_of_isBlank (blanks x mem)] at outside
      cases outside
    · exact ok
  have border := B.le
  have length := B.lt_length
  have place := cursor_of_leadsTo level.leadsTo
  have same : (t'.cursor j).ahead.take (d.offset - j) = (t.cursor j).ahead.take (d.offset - j) :=
    B.toShared.take (by omega) (by omega)
  rw [place] at level
  refine ⟨j, lt, rfl, rfl, m, t'.cursor d.offset, B.level_of within level, ?_, ?_, ?_⟩
  · refine ⟨j, ?_, by rw [advance_cursor, Nat.zero_add]⟩
    show j ≤ (t'.drop 0).length
    rw [List.drop_zero]
    omega
  · refine ⟨d.offset - j, ?_, by rw [advance_cursor, Nat.add_sub_cancel' (by omega)]⟩
    show d.offset - j ≤ (t'.drop j).length
    rw [List.length_drop]
    omega
  · intro ch mem
    refine blanks ch ?_
    show ch ∈ (t.cursor j).ahead.take (d.offset - j)
    rw [← same]
    exact mem

section InStep

variable {R : Cursor → Cursor → Prop} {w : Text} {after : Cursor}

/-- What is passed from a place before the border leads to the border or to a place before it. -/
theorem onward {k : Nat} (before : ∀ c c', Before i t t' c c' → R c c')
    (stop : R (t.cursor i) (t'.cursor i)) (le : j + k ≤ i)
    (there : ∃ m, Near (t.cursor 0) ((t.cursor j).advance k) m) :
    R ((t.cursor j).advance k) ((t'.cursor j).advance k) := by
  rw [advance_cursor] at there ⊢
  rw [advance_cursor]
  rcases Nat.lt_or_ge (j + k) i with inside | beyond
  · exact before _ _ ⟨j + k, inside, rfl, rfl, there⟩
  · rw [show j + k = i from by omega]
    exact stop

/-- The text of a doc comment ends at the border or before it. -/
theorem docText (B : Border e i t t') (lt : j < i) (near : Near (t.cursor 0) (t.cursor j) m)
    (doc : startsDocComment (t.cursor j).ahead = true) (hl : (t.cursor j).lexeme? = .ok (some n)) :
    j + (Text.trimEnd ((t.cursor j).ahead.take n)).length ≤ i
      ∧ ∃ m, Near (t.cursor 0)
          ((t.cursor j).advance (Text.trimEnd ((t.cursor j).ahead.take n)).length) m := by
  have bound := B.lexeme_le lt near hl
  constructor
  · obtain ⟨b, eq, _⟩ := Text.exists_trimEnd_append ((t.cursor j).ahead.take n)
    have total := congrArg List.length eq
    rw [List.length_append, List.length_take] at total
    omega
  · have level := near.level_of_lexeme hl
    obtain ⟨a, hdoc⟩ : ∃ a, DocAt (t.cursor j) a := ⟨_, doc, bind_ok_iff.mpr ⟨some n, hl, rfl⟩⟩
    obtain ⟨n', hl', rfl⟩ := hdoc.exists_lexeme
    rw [hl] at hl'
    cases hl'
    have there := (hdoc.near level).1
    simp only [Nat.add_sub_cancel_left] at there
    exact ⟨m, there⟩

/-- A word before the border is read in both texts. -/
theorem word (B : Border e i t t') (before : ∀ c c', Before i t t' c c' → R c c')
    (stop : R (t.cursor i) (t'.cursor i)) (lt : j < i) (inside : j < e)
    (near : Near (t.cursor 0) (t.cursor j) m) (hw : (t.cursor j).identifier? = some (w, after)) :
    ∃ after', (t'.cursor j).identifier? = some (w, after')
      ∧ (after'.ahead.head? = after.ahead.head? ∨ R after after')
      ∧ ((t.cursor j).PlainWord w → (t'.cursor j).PlainWord w ∧ R after after') := by
  have border := B.le
  have agree := B.toShared.agree (j := j) (by omega)
  obtain ⟨bound, fits⟩ := B.word_le lt hw
  obtain ⟨found, rfl⟩ := identifier?_eq_some hw
  obtain ⟨after', hw', there⟩ := agree.identifier? hw (by rw [advance_offset]; exact fits)
  obtain ⟨_, rfl⟩ := identifier?_eq_some hw'
  refine ⟨_, hw', .inl ?_, fun plain => ⟨fun k lt => ?_, onward before stop bound ?_⟩⟩
  · -- a word that ends at the shared blank is followed by that blank in both texts
    rw [advance_cursor, advance_cursor]
    rcases Nat.lt_or_ge (j + w.length) e with inside | beyond
    · exact (B.toShared.agree (by omega)).head? inside
    · obtain ⟨b, first, first', _⟩ := B.toShared.blank
      rw [show j + w.length = e from by omega, first, first']
  · refine (agree.advance (k := k) ?_).rawOpener?_none (plain k lt)
    show j + k ≤ e
    omega
  · have level : Level (t.cursor 0) (t.cursor j) m := by
      obtain ⟨ch, first, word⟩ := isWord_of_identifier? hw
      refine near.level fun ch' first' => ?_
      rw [first] at first'
      cases first'
      exact not_isBlank_of_isWord word
    exact ⟨m, (level.identifier hw plain).near⟩

/-- Behind a scope before the border a reading goes on. -/
theorem scope (near : Near (t.cursor 0) (t.cursor j) m) (scope : scopeLength? (t.cursor j).ahead = some n) :
    ∃ m, Near (t.cursor 0) ((t.cursor j).advance n) m := by
  obtain ⟨inner, rest, eq, rfl, _⟩ := scopeLength?_some scope
  obtain ⟨close, code, encloses, next, _⟩ := exists_encloses_scope scope
  have level : Level (t.cursor 0) (t.cursor j) m := by
    refine near.level fun ch first => ?_
    rw [eq] at first
    cases first
    rfl
  rw [← next]
  exact ⟨m, (encloses.level_after level).near⟩

/-- **Places before a border are in step**, if places before it and at it are related. -/
theorem inStep {c c' : Cursor} (B : Border e i t t') (before : ∀ c c', Before i t t' c c' → R c c')
    (stop : R (t.cursor i) (t'.cursor i)) (h : Before i t t' c c') : c.InStep R c' := by
  obtain ⟨j, lt, rfl, rfl, m, near⟩ := h
  have border := B.le
  have length := B.lt_length
  have agree := B.toShared.agree (j := j) (by omega)
  by_cases wall : j = e
  · -- the two texts share this blank, but not what stands behind it
    obtain ⟨w, first, first', blank⟩ := B.toShared.blank
    rw [← wall] at first first'
    refine .of_blank first first' blank agree.atWordStart (onward before stop (by omega) ?_)
    refine near.next (lexeme?_of_blank first blank) ?_
    intro none
    rw [none] at first
    cases first
  · have inside : (t.cursor j).offset < e := by
      show j < e
      omega
    refine ⟨agree.head? inside, fun _ => agree.atWordStart, fun n comment => ?_, agree.comment?_none inside,
      fun n hl => ?_, agree.lexeme?_none inside,
      fun hl more _ => onward before stop lt (near.next hl more),
      B.toShared.startsDocComment (by omega), fun n doc hl => ?_,
      B.toShared.startsWith (by omega) "#[" (by decide), fun w after hw =>
      B.word before stop lt inside near hw, ?_, fun n scope => ?_⟩
    · have hl := lexeme?_some_iff.mpr (.inl comment)
      have bound := B.lexeme_le lt near hl
      refine ⟨n, comment?_of_take comment ?_ (B.toShared.take (by omega) (by omega))⟩
      show n < (t.drop j).length
      rw [List.length_drop]
      omega
    · refine ⟨n, B.lexeme lt near hl, onward before stop (B.lexeme_le lt near hl) ?_⟩
      exact ⟨_, ((near.level_of_lexeme hl).reads (.lexeme hl (.here _))).near⟩
    · have bound := B.lexeme_le lt near hl
      obtain ⟨fits, there⟩ := B.docText lt near doc hl
      exact ⟨B.lexeme lt near hl, B.toShared.take (by omega) (by omega), onward before stop fits there⟩
    · obtain ⟨x, first, first', outside, _⟩ := B.stop
      exact scopeLength?_of_take (by omega) (getElem?_of_first (Nat.le_of_lt lt) first)
        (getElem?_of_first (Nat.le_of_lt lt) first') (B.toShared.take (by omega) (by omega)) outside
    · have bound := B.scope_le lt scope
      exact ⟨B.toShared.take (by omega) (by omega), onward before stop bound (Border.scope near scope)⟩

end InStep

end Border

end EnumExtract
