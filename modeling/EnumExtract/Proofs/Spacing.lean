/-
  EnumExtract.Proofs.Spacing
  ────────────────────────────────
  A comment, and a blank in its place.

  A comment between two tokens of a source is taken out and a blank put in.  In
  front of it the two sources are the same, behind it they are the same at
  other offsets, and at the place itself every reader skips what stands there,
  the comment here and the blank there.

      front │ /* … */ │ back
      front │    ␣    │ back

  The blank must not complete what the comment keeps apart: a character
  literal, the scope of a visibility, or the label of a field.

  Main results:
    • `InStep.symm`               what is in step is so the other way,
    • `Spacer.lockstep`           the two sources are read in lockstep,
    • `Spacer.lockstep_flip`      the other way, too,
    • `Spacer.keepsAttributes`    attributes are kept.
-/
import EnumExtract.Proofs.Opaque

namespace EnumExtract

open Cursor

/-! ## §1. Both ways. -/

namespace Cursor

variable {R : Cursor → Cursor → Prop} {c c' : Cursor}

/-- **Places in step are so the other way**, if the first one can be read at, the next place is
always related, and in a word there no raw string opens that opens none at the second one. -/
theorem InStep.symm (h : c.InStep R c') (reads : ∃ r, c.lexeme? = .ok r)
    (next : c.lexeme? = .ok none → c.ahead ≠ [] → R (c.advance 1) (c'.advance 1))
    (plain : ∀ w after, c.identifier? = some (w, after) → c'.PlainWord w → c.PlainWord w) :
    c'.InStep (flip R) c := by
  obtain ⟨r, hr⟩ := reads
  have same : c'.lexeme? = .ok none → c.lexeme? = .ok none := by
    intro none'
    cases r with
    | none => exact hr
    | some n =>
        obtain ⟨n', some', _⟩ := h.lexeme n hr
        rw [none'] at some'
        cases some'
  have lexeme : ∀ n', c'.lexeme? = .ok (some n') →
      ∃ n, c.lexeme? = .ok (some n) ∧ R (c.advance n) (c'.advance n') := by
    intro n' some'
    cases r with
    | none =>
        rw [h.noLexeme hr] at some'
        cases some'
    | some n =>
        obtain ⟨n'', there, related⟩ := h.lexeme n hr
        rw [some'] at there
        cases there
        exact ⟨n, hr, related⟩
  have comment : ∃ k, c.comment? = .ok k := by
    obtain ⟨k, hk, _⟩ := bind_ok_iff.mp hr
    exact ⟨k, hk⟩
  obtain ⟨k, hk⟩ := comment
  have more (h' : c'.ahead ≠ []) : c.ahead ≠ [] := by
    intro none
    have head := h.head
    rw [none] at head
    exact h' (List.head?_eq_none_iff.mp head)
  refine ⟨h.head.symm, fun more' => (h.start (more more')).symm, fun n' some' => ?_, fun none' => ?_, lexeme,
    same, fun none' more' _ => next (same none') (more more'), h.doc.symm, fun n' doc some' => ?_,
    h.sees.symm, fun w after' hw' => ?_, h.scope.symm, fun n hs => ?_⟩
  · cases k with
    | none =>
        rw [h.noComment hk] at some'
        cases some'
    | some n => exact ⟨n, hk⟩
  · cases k with
    | none => exact hk
    | some n =>
        obtain ⟨_, some'⟩ := h.comment n hk
        rw [none'] at some'
        cases some'
  · obtain ⟨n, hn, _⟩ := lexeme n' some'
    obtain ⟨some'', text, related⟩ := h.docText n (h.doc.symm.trans doc) hn
    rw [some'] at some''
    cases some''
    exact ⟨hn, text.symm, by rw [text]; exact related⟩
  · cases hw : c.identifier? with
    | none =>
        obtain ⟨ch, first, start⟩ := isNameStart_of_identifier? hw'
        rw [h.head] at first
        exact absurd hw (identifier?_ne_none first start)
    | some found =>
        obtain ⟨v, after⟩ := found
        obtain ⟨after'', there, behind, onward⟩ := h.word v after hw
        rw [hw'] at there
        cases there
        refine ⟨after, rfl, behind.imp Eq.symm id, fun plain' => ?_⟩
        have here := plain _ _ hw plain'
        exact ⟨here, (onward here).2⟩
  · rw [h.scope] at hs
    obtain ⟨text, related⟩ := h.scopeText n hs
    exact ⟨text.symm, related⟩

theorem lexeme?_of_end (h : c.ahead = []) : c.lexeme? = .ok none :=
  lexeme?_eq_none fun ch first => by
    rw [h] at first
    cases first

/-- The ends of two texts are in step. -/
theorem InStep.of_end (h : c.ahead = []) (h' : c'.ahead = []) : c.InStep R c' := by
  have noLexeme := lexeme?_of_end h
  have noLexeme' := lexeme?_of_end h'
  have noComment := (lexeme?_none_iff.mp noLexeme).1
  have noScope : scopeLength? c.ahead = none := by
    rw [h]
    rfl
  refine ⟨by rw [h, h'], fun more => absurd h more, fun n hc => ?_, fun _ => (lexeme?_none_iff.mp noLexeme').1,
    fun n hl => ?_, fun _ => noLexeme', fun _ more => absurd h more, by rw [h, h'], fun n doc => ?_,
    by rw [Cursor.sees, Cursor.sees, h, h'], fun w after hw => ?_, by rw [h, h'], fun n hs => ?_⟩
  · rw [noComment] at hc
    cases hc
  · rw [noLexeme] at hl
    cases hl
  · exact absurd noComment (comment?_of_startsDocComment doc)
  · obtain ⟨ch, first, _⟩ := isWord_of_identifier? hw
    rw [h] at first
    cases first
  · rw [noScope] at hs
    cases hs

theorem Skipped.symm (h : c.Skipped R c') : c'.Skipped (flip R) c := by
  obtain ⟨n, n', skip, skip', related⟩ := h
  exact ⟨n', n, skip', skip, related⟩

end Cursor

/-! ## §2. Spacers. -/

/-- A line that is not all of the text ends in a line feed. -/
theorem feed_of_lineLength (t : Text) (short : lineLength t < t.length) :
    ∃ i, lineLength t = i + 1 ∧ t[i]? = some '\n' := by
  induction t with
  | nil => cases short
  | cons c t ih =>
      rw [lineLength] at short ⊢
      split
      next feed => exact ⟨0, rfl, by rw [feed]; rfl⟩
      next feed =>
        rw [if_neg feed, List.length_cons] at short
        obtain ⟨i, length, found⟩ := ih (by omega)
        exact ⟨i + 1, by omega, found⟩

/-- The text `com` is a comment between two tokens of a source, no doc comment and in no attribute.
A blank in its place completes no character literal, no scope and no label of a field. -/
structure Spacer (front com back : Text) : Prop where
  comment : ((front ++ (com ++ back)).cursor front.length).comment? = .ok (some com.length)
  noDoc : startsDocComment (com ++ back) = false
  level : ∃ m, Level ((front ++ (com ++ back)).cursor 0) ((front ++ (com ++ back)).cursor front.length) m
  outside : Outside ((front ++ (com ++ back)).cursor 0) front.length
  tick : back.head? = some '\'' → ¬ front.EndsInTick
  scope : ∀ j < front.length, ∀ n ∈ scopeLength? ((front ++ ([' '] ++ back)).cursor j).ahead,
    j + n ≤ front.length
  label : ∀ j < front.length, ∀ l ∈ Field.label? ((front ++ ([' '] ++ back)).cursor j).ahead,
    j + l.2 ≤ front.length

/-- Corresponding places of the two sources. -/
abbrev Blanked (front com back : Text) : Cursor → Cursor → Prop :=
  Replaced front com [' '] back

namespace Spacer

variable {front com back : Text} {c c' : Cursor} {j k n : Nat} {m : Int}

theorem ahead_here (front mid back : Text) :
    ((front ++ (mid ++ back)).cursor front.length).ahead = mid ++ back :=
  List.drop_left

/-- The slash that the comment starts with. -/
theorem slash (S : Spacer front com back) :
    ((front ++ (com ++ back)).cursor front.length).ahead.head? = some '/' := by
  rcases comment?_some S.comment with ⟨_, ahead, _⟩ | ⟨_, ahead, _⟩ <;> rw [ahead] <;> rfl

theorem length_pos (S : Spacer front com back) : 0 < com.length :=
  (comment?_bounds S.comment).1

/-- What stands in front of the comment is the same in both sources. -/
theorem agree (S : Spacer front com back) (le : j ≤ front.length) :
    Agree front.length front.length ((front ++ (com ++ back)).cursor j)
      ((front ++ ([' '] ++ back)).cursor j) := by
  have more : com ++ back ≠ [] := by
    intro none
    have slash := S.slash
    rw [ahead_here, none] at slash
    cases slash
  have fence : Fence front (com ++ back) (' ' :: back) := .of_gap more rfl (by decide) S.tick
  refine ⟨?_, front.drop j, com ++ back, ' ' :: back, List.drop_append_of_le_length le,
    List.drop_append_of_le_length le, ?_, ?_, fence.drop j⟩
  · show (if j = 0 then none else (front ++ ([' '] ++ back))[j - 1]?)
      = if j = 0 then none else (front ++ (com ++ back))[j - 1]?
    split
    · rfl
    · rw [List.getElem?_append_left (by omega), List.getElem?_append_left (by omega)]
  · show j + (front.drop j).length = front.length
    rw [List.length_drop]
    omega
  · show j + (front.drop j).length = front.length
    rw [List.length_drop]
    omega

/-- A slash stands as far ahead as the comment does, and nothing else. -/
theorem ne_of_getElem? (S : Spacer front com back) (lt : j < front.length) {i : Nat} {ch : Char}
    (found : ((front ++ (com ++ back)).cursor j).ahead[i]? = some ch) (other : ch ≠ '/') :
    j + i ≠ front.length := by
  intro here
  have there := Border.getElem?_of_first (Nat.le_of_lt lt) S.slash
  rw [show front.length - j = i from by omega, found] at there
  exact other (Option.some.inj there)

section Before

variable (S : Spacer front com back) (lt : j < front.length)
  (near : Near ((front ++ (com ++ back)).cursor 0) ((front ++ (com ++ back)).cursor j) m)
include S lt near

/-- In front of the comment the source can be read. -/
theorem exists_lexeme? : ∃ r, ((front ++ (com ++ back)).cursor j).lexeme? = .ok r := by
  have more : ((front ++ (com ++ back)).cursor j).ahead ≠ [] := by
    intro none
    have length := congrArg List.length none
    change ((front ++ (com ++ back)).drop j).length = 0 at length
    rw [List.length_drop, List.length_append] at length
    omega
  obtain ⟨ch, rest, eq⟩ := List.exists_cons_of_ne_nil more
  have first : ((front ++ (com ++ back)).cursor j).ahead.head? = some ch := by rw [eq, List.head?_cons]
  by_cases blank : isBlank ch = true
  · exact ⟨none, lexeme?_of_blank first blank⟩
  · have level := near.level fun ch' first' => by
      rw [first] at first'
      cases first'
      exact Bool.eq_false_iff.mpr blank
    -- the reading comes by the comment, so that it gets over what stands here
    obtain ⟨k, there⟩ := S.level
    obtain ⟨code, reads, _⟩ := level.reads_to there (Nat.le_of_lt lt)
    generalize here : (front ++ (com ++ back)).cursor j = x at reads
    cases reads with
    | here =>
        have same := congrArg Cursor.offset here
        change j = front.length at same
        omega
    | lexeme hl _ => exact ⟨_, hl⟩
    | char hl _ _ => exact ⟨_, hl⟩

/-- A lexeme in front of the comment ends in front of it. -/
theorem lexeme_le (hl : ((front ++ (com ++ back)).cursor j).lexeme? = .ok (some n)) :
    j + n ≤ front.length := by
  obtain ⟨k, level⟩ := S.level
  exact (near.level_of_lexeme hl).lexeme_le level lt hl

omit near in
/-- A word in front of the comment ends in front of it. -/
theorem word_le {w : Text} {after : Cursor}
    (hw : ((front ++ (com ++ back)).cursor j).identifier? = some (w, after)) : j + w.length ≤ front.length := by
  obtain ⟨found, _⟩ := identifier?_eq_some hw
  obtain ⟨rest, eq, isIdentifier, _⟩ := Text.identifier?_some found
  rcases Nat.lt_or_ge front.length (j + w.length) with past | ok
  · exfalso
    have there := Border.getElem?_of_first (Nat.le_of_lt lt) S.slash
    rw [eq, List.getElem?_append_left (by omega)] at there
    rcases isIdentifier.isWord '/' (List.mem_of_getElem? there) with word | same
    · cases word
    · cases same
  · exact ok

omit near in
/-- A scope in front of the comment ends in front of it. -/
theorem scope_le (hs : scopeLength? ((front ++ (com ++ back)).cursor j).ahead = some n) :
    j + n ≤ front.length := by
  obtain ⟨inner, rest, eq, rfl, inside⟩ := scopeLength?_some hs
  rcases Nat.lt_or_ge front.length (j + (inner.length + 2)) with past | ok
  · exfalso
    have whole : ((front ++ (com ++ back)).cursor j).ahead = '(' :: (inner ++ ')' :: rest) := eq
    have there := Border.getElem?_of_first (Nat.le_of_lt lt) S.slash
    obtain ⟨i, hi⟩ : ∃ i, front.length - j = i + 1 := ⟨front.length - j - 1, by omega⟩
    rw [whole, hi, List.getElem?_cons_succ] at there
    rcases Nat.lt_or_ge i inner.length with before | last
    · rw [List.getElem?_append_left before] at there
      cases inside '/' (List.mem_of_getElem? there)
    · rw [List.getElem?_append_right last, show i - inner.length = 0 from by omega] at there
      cases there
  · exact ok

omit near in
/-- The same scope stands in front of the comment in both sources. -/
theorem scope_eq : scopeLength? ((front ++ ([' '] ++ back)).cursor j).ahead
    = scopeLength? ((front ++ (com ++ back)).cursor j).ahead := by
  have agree := S.agree (Nat.le_of_lt lt)
  -- a scope is settled by what stands up to its closing parenthesis
  have settled {t t' : Text} {n : Nat} (hs : scopeLength? t = some n) (same : t'.take n = t.take n) :
      scopeLength? t' = some n := by
    obtain ⟨inner, rest, eq, rfl, _⟩ := scopeLength?_some hs
    have found : t[inner.length + 1]? = some ')' := by
      rw [eq]
      simp
    rw [← hs]
    refine scopeLength?_of_take (Nat.succ_pos inner.length) found ?_ ?_ rfl
    · have cut := congrArg (·[inner.length + 1]?) same
      simpa only [List.getElem?_take, if_pos (Nat.lt_succ_self (inner.length + 1)), found] using cut
    · have cut := congrArg (List.take (inner.length + 1)) same
      simpa only [List.take_take, Nat.min_eq_left (Nat.le_succ (inner.length + 1))] using cut
  cases hs : scopeLength? ((front ++ (com ++ back)).cursor j).ahead with
  | some n => exact settled hs (agree.take (S.scope_le lt hs))
  | none =>
      cases hs' : scopeLength? ((front ++ ([' '] ++ back)).cursor j).ahead with
      | none => rfl
      | some n =>
          -- a scope that the blank does not complete stands in the other source, too
          have le := S.scope j lt n hs'
          rw [← hs, settled hs' (agree.take le).symm]

omit S lt near in
/-- The places that a reader leads to from in front of the comment correspond. -/
theorem onward (le : j + k ≤ front.length)
    (there : ∃ m, Near ((front ++ (com ++ back)).cursor 0) (((front ++ (com ++ back)).cursor j).advance k) m) :
    Blanked front com back (((front ++ (com ++ back)).cursor j).advance k)
      (((front ++ ([' '] ++ back)).cursor j).advance k) := by
  rw [advance_cursor] at there ⊢
  rw [advance_cursor]
  rcases Nat.lt_or_ge (j + k) front.length with inside | beyond
  · exact .before ⟨j + k, inside, rfl, rfl, there⟩
  · rw [show j + k = front.length from by omega]
    exact .here

theorem doc_eq : startsDocComment ((front ++ ([' '] ++ back)).cursor j).ahead
    = startsDocComment ((front ++ (com ++ back)).cursor j).ahead := by
  have agree := S.agree (Nat.le_of_lt lt)
  obtain ⟨r, hl⟩ := S.exists_lexeme? lt near
  obtain ⟨comment, hc, _⟩ := bind_ok_iff.mp hl
  cases comment with
  | some n => exact agree.startsDocComment_eq hc (S.lexeme_le lt near (lexeme?_some_iff.mpr (.inl hc)))
  | none =>
      have noDoc {x : Cursor} (hx : x.comment? = .ok none) : startsDocComment x.ahead = false :=
        Bool.eq_false_iff.mpr fun doc => comment?_of_startsDocComment doc hx
      rw [noDoc hc, noDoc (agree.comment?_none lt hc)]

omit near in
theorem sees_eq : ((front ++ ([' '] ++ back)).cursor j).sees "#["
    = ((front ++ (com ++ back)).cursor j).sees "#[" := by
  have agree := S.agree (Nat.le_of_lt lt)
  cases hs : ((front ++ (com ++ back)).cursor j).sees "#[" with
  | false => exact agree.sees_attribute lt hs
  | true =>
      obtain ⟨rest, eq⟩ := sees_iff.mp hs
      have bracket : ((front ++ (com ++ back)).cursor j).ahead[1]? = some '[' := by
        rw [eq]
        rfl
      have apart := S.ne_of_getElem? lt bracket (by decide)
      rw [agree.sees (by show j + 2 ≤ _; omega), hs]

theorem word {w : Text} {after : Cursor}
    (hw : ((front ++ (com ++ back)).cursor j).identifier? = some (w, after)) :
    ∃ after', ((front ++ ([' '] ++ back)).cursor j).identifier? = some (w, after')
      ∧ (after'.ahead.head? = after.ahead.head? ∨ Blanked front com back after after')
      ∧ (((front ++ (com ++ back)).cursor j).PlainWord w →
        ((front ++ ([' '] ++ back)).cursor j).PlainWord w ∧ Blanked front com back after after') := by
  have agree := S.agree (Nat.le_of_lt lt)
  have le := S.word_le lt hw
  obtain ⟨after', hw', agreeAfter⟩ := agree.identifier? hw (by
    obtain ⟨_, rfl⟩ := identifier?_eq_some hw
    exact le)
  obtain ⟨_, rfl⟩ := identifier?_eq_some hw
  obtain ⟨_, rfl⟩ := identifier?_eq_some hw'
  refine ⟨_, hw', ?_, fun plain => ⟨fun k inside => ?_, onward le ?_⟩⟩
  · rcases Nat.lt_or_ge (j + w.length) front.length with inside | last
    · exact .inl (agreeAfter.head? inside)
    · right
      rw [advance_cursor, advance_cursor, show j + w.length = front.length from by omega]
      exact .here
  · exact (agree.advance (by show j + k ≤ _; omega)).rawOpener?_none (plain k inside)
  · have level : Level ((front ++ (com ++ back)).cursor 0) ((front ++ (com ++ back)).cursor j) m := by
      obtain ⟨ch, first, isWord⟩ := isWord_of_identifier? hw
      refine near.level fun ch' first' => ?_
      rw [first] at first'
      cases first'
      exact not_isBlank_of_isWord isWord
    exact ⟨m, (level.identifier hw plain).near⟩

end Before

/-- **Places in front of the comment are in step.** -/
theorem inStep (S : Spacer front com back)
    (h : Before front.length (front ++ (com ++ back)) (front ++ ([' '] ++ back)) c c') :
    c.InStep (Blanked front com back) c' := by
  obtain ⟨j, lt, rfl, rfl, m, near⟩ := h
  have agree := S.agree (Nat.le_of_lt lt)
  refine ⟨agree.head? lt, fun _ => agree.atWordStart, fun n comment => ?_, agree.comment?_none lt,
    fun n hl => ?_, agree.lexeme?_none lt, fun hl more _ => onward lt (near.next hl more),
    S.doc_eq lt near, fun n doc hl => ?_, S.sees_eq lt, fun w after => S.word lt near, S.scope_eq lt,
    fun n hs => ?_⟩
  · exact ⟨n, agree.comment?_some comment (S.lexeme_le lt near (lexeme?_some_iff.mpr (.inl comment)))⟩
  · have le := S.lexeme_le lt near hl
    refine ⟨n, agree.lexeme?_some hl le, onward le ?_⟩
    exact ⟨_, ((near.level_of_lexeme hl).reads (.lexeme hl (.here _))).near⟩
  · have le := S.lexeme_le lt near hl
    refine ⟨agree.lexeme?_some hl le, agree.take le, onward ?_ ?_⟩
    · obtain ⟨b, eq, _⟩ := Text.exists_trimEnd_append (((front ++ (com ++ back)).cursor j).ahead.take n)
      have total := congrArg List.length eq
      rw [List.length_append, List.length_take] at total
      omega
    · obtain ⟨a, hdoc⟩ : ∃ a, DocAt ((front ++ (com ++ back)).cursor j) a :=
        ⟨_, doc, bind_ok_iff.mpr ⟨some n, hl, rfl⟩⟩
      obtain ⟨n', hl', rfl⟩ := hdoc.exists_lexeme
      rw [hl] at hl'
      cases hl'
      have there := (hdoc.near (near.level_of_lexeme hl)).1
      simp only [Nat.add_sub_cancel_left] at there
      exact ⟨m, there⟩
  · have le := S.scope_le lt hs
    exact ⟨agree.take le, onward le (Border.scope near hs)⟩

/-- A raw string opens in front of the comment in both sources or in neither. -/
theorem plainWord (S : Spacer front com back) (lt : j < front.length) {w : Text} {after : Cursor}
    (hw : ((front ++ (com ++ back)).cursor j).identifier? = some (w, after))
    (plain : ((front ++ ([' '] ++ back)).cursor j).PlainWord w) :
    ((front ++ (com ++ back)).cursor j).PlainWord w := by
  intro k inside
  have le := S.word_le lt hw
  have agree := (S.agree (Nat.le_of_lt lt)).advance (k := k) (by show j + k ≤ _; omega)
  cases opens : (((front ++ (com ++ back)).cursor j).advance k).rawOpener? with
  | none => rfl
  | some x =>
      exfalso
      obtain ⟨size, hashes⟩ := x
      obtain ⟨_, opener⟩ := Cursor.rawOpener?_some opens
      obtain ⟨letters, mem, rest, eq, rfl⟩ := exists_of_rawOpener? opener
      have ahead : ((front ++ (com ++ back)).cursor (j + k)).ahead = opening letters hashes ++ rest := by
        rw [advance_cursor] at eq
        rw [eq, opening]
        simp
      -- the slash of the comment is in no opener
      have fits : j + k + (letters.length + hashes + 1) ≤ front.length := by
        rcases Nat.lt_or_ge front.length (j + k + (letters.length + hashes + 1)) with past | ok
        · exfalso
          have there := Border.getElem?_of_first (j := j + k) (by omega) S.slash
          have size := length_opening letters hashes
          rw [ahead, List.getElem?_append_left (by omega)] at there
          rcases mem_opening mem (List.mem_of_getElem? there) with word | hash | quote
          · cases word
          · cases hash
          · cases quote
        · exact ok
      have there := rawOpener?_of_take opens (agree.take fits) agree.atWordStart
      rw [plain k inside] at there
      cases there

theorem offsets (h : Blanked front com back c c') :
    (c.offset ≤ front.length ∧ c'.offset = c.offset)
      ∨ ∃ k, c.offset = front.length + com.length + k ∧ c'.offset = front.length + 1 + k :=
  Replaced.offsets h

/-- The comment is skipped in the one source and the blank in the other. -/
theorem skipped (S : Spacer front com back) :
    ((front ++ (com ++ back)).cursor front.length).Skipped (Blanked front com back)
      ((front ++ ([' '] ++ back)).cursor front.length) := by
  refine ⟨com.length, 1, ?_, trivium?_of_isBlank (by rw [ahead_here]; rfl) rfl, ?_⟩
  · refine trivium?_of_comment S.comment ?_
    rw [ahead_here, S.noDoc, Bool.and_false]
  · rw [advance_cursor, advance_cursor]
    exact .behind 0

/-- A comment with something behind it ends in a slash or a line feed. -/
theorem last (S : Spacer front com back) (more : back ≠ []) :
    ∃ i ch, com.length = i + 1 ∧ com[i]? = some ch ∧ (ch = '/' ∨ ch = '\n') := by
  have inside {i : Nat} {ch : Char} (size : com.length = i + 1) (found : (com ++ back)[i]? = some ch) :
      com[i]? = some ch := by
    rwa [List.getElem?_append_left (by omega)] at found
  have comment := comment?_some S.comment
  rw [ahead_here] at comment
  rcases comment with ⟨_, _, size⟩ | ⟨_, _, size⟩
  · -- a line comment at the end of the source would have nothing behind it
    have short : lineLength (com ++ back) < (com ++ back).length := by
      rw [← size, List.length_append]
      have := List.length_pos_iff.mpr more
      omega
    obtain ⟨i, length, feed⟩ := feed_of_lineLength (com ++ back) short
    exact ⟨i, '\n', by omega, inside (by omega) feed, .inr rfl⟩
  · obtain ⟨i, length, slash⟩ := slash_of_blockLength? 0 (com ++ back) _ size
    exact ⟨i, '/', length, inside length slash, .inl rfl⟩

/-- What stands in front of a place behind the comment, and of the place that corresponds to it. -/
theorem before_behind (S : Spacer front com back) (k : Nat)
    (more : ((front ++ (com ++ back)).cursor (front.length + com.length + k)).ahead ≠ []) :
    ∃ x, (x = '/' ∨ x = '\n')
      ∧ ((front ++ (com ++ back)).cursor (front.length + com.length + k)).before
        = (if k = 0 then some x else back[k - 1]?)
      ∧ ((front ++ ([' '] ++ back)).cursor (front.length + 1 + k)).before
        = (if k = 0 then some ' ' else back[k - 1]?) := by
  have rest : back ≠ [] := by
    rintro rfl
    refine more (List.drop_of_length_le ?_)
    rw [List.append_nil, List.length_append]
    omega
  obtain ⟨i, x, size, found, kind⟩ := S.last rest
  have place {mid : Text} {i : Nat} {x : Char} (size : mid.length = i + 1) (found : mid[i]? = some x) :
      ((front ++ (mid ++ back)).cursor (front.length + mid.length + k)).before
        = if k = 0 then some x else back[k - 1]? := by
    show (if front.length + mid.length + k = 0 then none
      else (front ++ (mid ++ back))[front.length + mid.length + k - 1]?) = _
    rw [if_neg (by omega), List.getElem?_append_right (by omega),
      show front.length + mid.length + k - 1 - front.length = i + k from by omega]
    split
    next zero => rw [zero, Nat.add_zero, List.getElem?_append_left (by omega), found]
    next => rw [List.getElem?_append_right (by omega), show i + k - mid.length = k - 1 from by omega]
  exact ⟨x, kind, place size found, @place [' '] 0 ' ' rfl rfl⟩

theorem atWordStart_behind (S : Spacer front com back) (k : Nat)
    (more : ((front ++ (com ++ back)).cursor (front.length + com.length + k)).ahead ≠ []) :
    ((front ++ ([' '] ++ back)).cursor (front.length + 1 + k)).atWordStart
      = ((front ++ (com ++ back)).cursor (front.length + com.length + k)).atWordStart := by
  obtain ⟨x, kind, before, before'⟩ := S.before_behind k more
  rw [atWordStart, atWordStart, before, before']
  split
  · rcases kind with rfl | rfl <;> rfl
  · rfl

/-- Places behind the comment are in step. -/
theorem inStep_behind (S : Spacer front com back) (k : Nat) :
    ((front ++ (com ++ back)).cursor (front.length + com.length + k)).InStep (Blanked front com back)
      ((front ++ ([' '] ++ back)).cursor (front.length + 1 + k)) := by
  have same := Replaced.ahead_behind front com [' '] back k
  by_cases more : ((front ++ (com ++ back)).cursor (front.length + com.length + k)).ahead = []
  · exact .of_end more (same.trans more)
  · refine .of_same same (S.atWordStart_behind k more) fun n _ => ?_
    rw [advance_cursor, advance_cursor, Nat.add_assoc, Nat.add_assoc _ k n]
    exact .behind (k + n)

theorem inStep_behind_symm (S : Spacer front com back) (k : Nat) :
    ((front ++ ([' '] ++ back)).cursor (front.length + 1 + k)).InStep (flip (Blanked front com back))
      ((front ++ (com ++ back)).cursor (front.length + com.length + k)) := by
  have same := Replaced.ahead_behind front com [' '] back k
  by_cases more : ((front ++ (com ++ back)).cursor (front.length + com.length + k)).ahead = []
  · exact .of_end (same.trans more) more
  · refine .of_same same.symm (S.atWordStart_behind k more).symm fun n _ => ?_
    rw [advance_cursor, advance_cursor, Nat.add_assoc, Nat.add_assoc _ k n]
    exact .behind (k + n)

/-- **The two sources are read in lockstep.** -/
theorem lockstep (S : Spacer front com back) :
    Lockstep (front ++ (com ++ back)) (front ++ ([' '] ++ back)) (Blanked front com back) where
  place h := by
    cases h with
    | before h =>
        obtain ⟨j, _, rfl, rfl, _⟩ := h
        exact ⟨rfl, rfl⟩
    | here => exact ⟨rfl, rfl⟩
    | behind k => exact ⟨rfl, rfl⟩
  order h h' := by
    have pos := S.length_pos
    rcases offsets h with ⟨le, same⟩ | ⟨k, place, place'⟩ <;>
      rcases offsets h' with ⟨le', same'⟩ | ⟨j, there, there'⟩ <;> omega
  inStep h := by
    cases h with
    | before h => exact .inl (S.inStep h)
    | here => exact .inr S.skipped
    | behind k => exact .inl (S.inStep_behind k)

/-- Where no lexeme stands, the next places correspond. -/
theorem next (S : Spacer front com back) (h : Blanked front com back c c') (hl : c.lexeme? = .ok none)
    (more : c.ahead ≠ []) : Blanked front com back (c.advance 1) (c'.advance 1) := by
  cases h with
  | before h =>
      obtain ⟨j, lt, rfl, rfl, m, near⟩ := h
      exact onward lt (near.next hl more)
  | here =>
      rw [lexeme?_some_iff.mpr (.inl S.comment)] at hl
      cases hl
  | behind k =>
      rw [advance_cursor, advance_cursor]
      exact .behind (k + 1)

/-- **The two sources are read in lockstep the other way**, too. -/
theorem lockstep_flip (S : Spacer front com back) :
    Lockstep (front ++ ([' '] ++ back)) (front ++ (com ++ back)) (flip (Blanked front com back)) where
  place h := (S.lockstep.place h).symm
  order h h' := (S.lockstep.order h h').symm
  inStep {c' c} h := by
    have h : Blanked front com back c c' := h
    cases h with
    | before before =>
        have both := S.inStep before
        obtain ⟨j, lt, rfl, rfl, m, near⟩ := before
        exact .inl (both.symm (S.exists_lexeme? lt near) (S.next h) fun w after => S.plainWord lt)
    | here => exact .inr S.skipped.symm
    | behind k => exact .inl (S.inStep_behind_symm k)

/-- Where no lexeme stands in the source with the blank, the next places correspond but for the blank. -/
theorem next_flip (S : Spacer front com back) (h : Blanked front com back c c') (stuck : ¬ c'.Passable)
    (hl : c'.lexeme? = .ok none) (more : c'.ahead ≠ []) :
    Blanked front com back (c.advance 1) (c'.advance 1) := by
  cases h with
  | before h =>
      have both := S.inStep h
      have related : Blanked front com back c c' := .before h
      obtain ⟨j, lt, rfl, rfl, m, near⟩ := h
      obtain ⟨r, hr⟩ := S.exists_lexeme? lt near
      cases r with
      | none => exact S.next related hr (S.lockstep_flip.ahead_ne_nil related more)
      | some n =>
          obtain ⟨_, hl', _⟩ := both.lexeme n hr
          rw [hl] at hl'
          cases hl'
  -- a blank can always be passed
  | here => exact absurd (passable_of_isBlank (by rw [ahead_here]; rfl) rfl) stuck
  | behind k =>
      rw [advance_cursor, advance_cursor]
      exact .behind (k + 1)

/-- The comment is inside no attribute, so that attributes are kept. -/
theorem keepsAttributes (S : Spacer front com back) : KeepsAttributes (Blanked front com back) := by
  intro c c' d h sees hd
  obtain ⟨_, encloses⟩ := closing_ok_iff.mp hd
  have forward := encloses.lt
  rw [advance_offset] at forward
  have pos := S.length_pos
  cases h with
  | before h =>
      obtain ⟨j, lt, rfl, rfl, m, near⟩ := h
      have level := near.level fun ch first => by
        obtain ⟨rest, eq⟩ := sees_iff.mp sees
        rw [eq] at first
        cases first
        rfl
      -- the attribute closes in front of the comment, where the sources are the same
      have within : d.offset < front.length := S.outside (level.hash sees) sees hd lt
      refine ⟨(S.agree (Nat.le_of_lt lt)).take ?_, fun x x' hx ge le => ?_⟩
      · show j + (d.offset + 1 - j) ≤ _
        omega
      · rcases offsets hx with ⟨_, same⟩ | ⟨k, place, _⟩
        · rw [same]
          rfl
        · omega
  | here =>
      exfalso
      have first := S.slash
      obtain ⟨rest, eq⟩ := sees_iff.mp sees
      rw [eq] at first
      cases first
  | behind k =>
      refine ⟨by rw [Replaced.ahead_behind], fun x x' hx ge le => ?_⟩
      have one : ([' '] : Text).length = 1 := rfl
      simp only [offset_cursor, one] at ge ⊢
      rcases offsets hx with ⟨le, _⟩ | ⟨j, there, there'⟩ <;> omega

end Spacer

end EnumExtract
