/-
  EnumExtract.Proofs.Agree
  ────────────────────────────────
  What a reader finds in a stretch of text does not depend on what follows it.

  Two cursors agree up to an offset of each text when the same characters
  stand before and between, and when what follows in the second text is
  nothing or a fence: it begins with a comma, a closing brace or bracket, an
  equals sign or a blank, and it closes no tick that the first text leaves open.

  Main results:
    • `Agree.lexeme?_some`    a lexeme within the stretch is a lexeme of both,
    • `Agree.lexeme?_none`    where none starts in the first, none does in the second,
    • `Agree.reads`           both stretches are read to the same code,
    • `Agree.closing`         a bracket closes in both at the same place.
-/
import EnumExtract.Proofs.Names
import EnumExtract.Proofs.Prelude

namespace EnumExtract

open Cursor

/-! ## §1. Fences. -/

/-- The characters that may stand right behind a stretch of text. -/
def isFence (ch : Char) : Bool :=
  ch == ',' || ch == '\x7d' || ch == ']' || ch == '=' || isBlank ch

/-- What is read in `u` with `s` behind it is read there with `s'` behind it, too. -/
structure Fence (u s s' : Text) : Prop where
  /-- Where the first text ends with `u`, the second one does. -/
  more : s = [] → s' = []
  stop : ∀ f rest, s' = f :: rest → isFence f = true
  /-- A tick of `u` that is no character with `s` behind it is none with `s'` behind it. -/
  tick : ∀ w v, u = w ++ '\'' :: v → characterLength? (v ++ s) = none →
    characterLength? (v ++ s') = none

theorem Fence.drop {u s s' : Text} (h : Fence u s s') (k : Nat) : Fence (u.drop k) s s' := by
  refine ⟨h.more, h.stop, fun w v eq => ?_⟩
  refine h.tick (u.take k ++ w) v ?_
  rw [List.append_assoc, ← eq, List.take_append_drop]

/-- A tick that is no character in front of other text is none at the end of the text. -/
theorem Fence.alone (u s : Text) : Fence u s [] := by
  refine ⟨fun _ => rfl, nofun, fun w v _ open' => ?_⟩
  cases h : characterLength? (v ++ []) with
  | none => rfl
  | some n =>
      exfalso
      obtain ⟨tail, z, eq, isTail, rfl⟩ := exists_of_characterLength? h
      rw [List.append_nil] at eq
      have closed := characterLength?_append isTail (z ++ s)
      rw [← List.append_assoc, ← eq, open'] at closed
      cases closed

/-- A fence is neither part of a word nor of an opener, a comment or a scope. -/
theorem isFence_ne {f : Char} (h : isFence f = true) :
    isWord f = false ∧ f ≠ '/' ∧ f ≠ '*' ∧ f ≠ '#' ∧ f ≠ '"' ∧ f ≠ '\'' ∧ f ≠ ':' ∧ f ≠ '('
      ∧ f ≠ '[' := by
  unfold isFence at h
  simp only [Bool.or_eq_true, beq_iff_eq] at h
  rcases h with (((rfl | rfl) | rfl) | rfl) | blank
  · decide
  · decide
  · decide
  · decide
  · refine ⟨?_, ?_⟩
    · cases word : isWord f with
      | false => rfl
      | true =>
          rw [not_isBlank_of_isWord word] at blank
          cases blank
    · -- none of the other characters is blank
      refine ⟨?_, ?_, ?_, ?_, ?_, ?_, ?_, ?_⟩ <;> intro same <;> subst same <;> cases blank

/-- A line comment that ends within a text ends there whatever follows the text. -/
theorem lineLength_append {u s : Text} (s' : Text) (more : s ≠ [])
    (le : lineLength (u ++ s) ≤ u.length) : lineLength (u ++ s') = lineLength (u ++ s) := by
  induction u with
  | nil =>
      have pos := lineLength_pos (t := [] ++ s) more
      rw [List.length_nil] at le
      omega
  | cons c u ih =>
      rw [List.cons_append, lineLength] at le ⊢
      rw [List.cons_append, lineLength]
      by_cases feed : c = '\n'
      · rw [if_pos feed, if_pos feed]
      · rw [if_neg feed, List.length_cons] at le
        rw [if_neg feed, if_neg feed, ih (by omega)]

/-- The opener of a raw string. -/
def opening (letters : Text) (hashes : Nat) : Text :=
  letters ++ List.replicate hashes '#' ++ ['"']

theorem length_opening (letters : Text) (hashes : Nat) :
    (opening letters hashes).length = letters.length + hashes + 1 := by
  simp [opening]
  omega

theorem rawOpener?_opening {letters : Text} (mem : letters ∈ rawLetters) (hashes : Nat) (w : Text) :
    rawOpener? (opening letters hashes ++ w) = some (letters.length + hashes + 1, hashes) := by
  rw [← rawOpener?_append mem hashes w, opening]
  simp

theorem mem_opening {letters : Text} (mem : letters ∈ rawLetters) {hashes : Nat} {ch : Char}
    (part : ch ∈ opening letters hashes) : isWord ch = true ∨ ch = '#' ∨ ch = '"' := by
  unfold opening at part
  rw [List.mem_append, List.mem_append, List.mem_replicate, List.mem_singleton] at part
  rcases part with (letter | hash) | quote
  · left
    unfold rawLetters at mem
    rcases List.mem_cons.mp mem with rfl | mem
    · rw [List.mem_singleton.mp letter]
      rfl
    · rw [List.mem_singleton.mp mem] at letter
      rcases List.mem_cons.mp letter with rfl | letter
      · rfl
      · rw [List.mem_singleton.mp letter]
        rfl
  · exact .inr (.inl hash.2)
  · exact .inr (.inr quote)

/-! ## §2. Lexemes by their text. -/

namespace Cursor

/-- A comment is one wherever the same text is ahead. -/
theorem comment?_of_same {c c' : Cursor} {r : Option Nat} (ahead : c'.ahead = c.ahead)
    (h : c.comment? = .ok r) : c'.comment? = .ok r := by
  unfold comment? at h ⊢
  rw [ahead]
  split at h
  next => exact h
  next =>
    split at h
    next => exact h
    next => cases h
  next => exact h

/-- A comment that the text goes on behind is one wherever its text stands. -/
theorem comment?_of_take {c c' : Cursor} {n : Nat} (hc : c.comment? = .ok (some n))
    (more : n < c.ahead.length) (same : c'.ahead.take n = c.ahead.take n) :
    c'.comment? = .ok (some n) := by
  have two {a b : Char} {rest : Text} (here : c.ahead = a :: b :: rest) (fits : 2 ≤ n) :
      ∃ rest', c'.ahead = a :: b :: rest' := by
    have fewer := congrArg (List.take 2) same
    rw [List.take_take, List.take_take, Nat.min_eq_left fits, here] at fewer
    refine ⟨c'.ahead.drop 2, ?_⟩
    rw [← List.take_append_drop 2 c'.ahead, fewer]
    simp
  rcases Cursor.comment?_some hc with ⟨rest, slashes, rfl⟩ | ⟨rest, opener, found⟩
  · -- a line comment that something follows ends in a line feed
    have fits : 2 ≤ lineLength c.ahead := by
      rw [slashes, lineLength, if_neg (by decide), lineLength, if_neg (by decide)]
      omega
    obtain ⟨rest', slashes'⟩ := two slashes fits
    have whole : lineLength c'.ahead = lineLength c.ahead := by
      generalize hn : lineLength c.ahead = n at more same
      have cut := List.take_append_drop n c.ahead
      have length : (c.ahead.take n).length = n := by
        rw [List.length_take]
        omega
      have behind : c.ahead.drop n ≠ [] := by
        rw [ne_eq, List.drop_eq_nil_iff]
        omega
      rw [← List.take_append_drop n c'.ahead, same,
        lineLength_append (c'.ahead.drop n) behind (Nat.le_of_eq (by rw [cut, length, hn])), cut, hn]
    unfold Cursor.comment?
    rw [slashes']
    show Except.ok (some (lineLength ('/' :: '/' :: rest'))) = _
    rw [← slashes', whole]
  · have fits : 2 ≤ n := by
      rw [opener, blockLength?] at found
      obtain ⟨m, _, rfl⟩ := Option.map_eq_some_iff.mp found
      omega
    obtain ⟨rest', opener'⟩ := two opener fits
    have there := (blockLength?_settled 0 c.ahead n found).of_take same
    unfold Cursor.comment?
    rw [opener'] at there ⊢
    simp only [there]

theorem rawOpener?_of_take {c c' : Cursor} {k hashes : Nat} (hc : c.rawOpener? = some (k, hashes))
    (same : c'.ahead.take k = c.ahead.take k) (start : c'.atWordStart = c.atWordStart) :
    c'.rawOpener? = some (k, hashes) := by
  obtain ⟨begins, opener⟩ := Cursor.rawOpener?_some hc
  obtain ⟨letters, mem, w, eq, rfl⟩ := exists_of_rawOpener? opener
  have cut : c.ahead = opening letters hashes ++ w := by
    rw [eq, opening]
    simp
  rw [← length_opening letters hashes, cut, List.take_left] at same
  unfold Cursor.rawOpener?
  rw [start, if_pos begins, ← List.take_append_drop (opening letters hashes).length c'.ahead, same]
  exact rawOpener?_opening mem hashes _

/-- A literal of more than one character is one wherever its text stands and no raw string opens
that does not open here. -/
theorem literal?_of_take {c c' : Cursor} {n : Nat} (hl : c.literal? = .ok (some n)) (long : 1 < n)
    (same : c'.ahead.take n = c.ahead.take n) (start : c'.atWordStart = c.atWordStart)
    (plain : c.rawOpener? = none → c'.rawOpener? = none) : c'.literal? = .ok (some n) := by
  have fewer {k : Nat} (le : k ≤ n) : c'.ahead.take k = c.ahead.take k := by
    have cut := congrArg (List.take k) same
    rwa [List.take_take, List.take_take, Nat.min_eq_left le] at cut
  have behind {a : Char} {rest : Text} {m : Nat} (here : c.ahead = a :: rest) (eq : n = m + 1) :
      ∃ rest', c'.ahead = a :: rest' ∧ rest'.take m = rest.take m := by
    rw [here, eq, List.take_succ_cons] at same
    cases there : c'.ahead with
    | nil =>
        rw [there] at same
        cases same
    | cons b rest' =>
        rw [there, List.take_succ_cons] at same
        obtain ⟨rfl, tail⟩ := List.cons.inj same
        exact ⟨rest', rfl, tail⟩
  rcases Cursor.literal?_some hl with ⟨j, hashes, m, opener, found, rfl⟩
      | ⟨noOpener, rest, m, here, found, rfl⟩ | ⟨noOpener, rest, m, here, found, rfl⟩
      | ⟨_, _, _, _, rfl⟩
  · have opener' := rawOpener?_of_take opener (fewer (by omega)) start
    obtain ⟨w, v, cut, long, stable⟩ := find?_settled _ (by simp) _ _ found
    rw [List.length_cons, List.length_replicate] at long
    have there : (c'.ahead.drop j).take w.length = w := by
      have inside := fewer (k := j + w.length) (by omega)
      rw [List.take_add, List.take_add, fewer (k := j) (by omega)] at inside
      rw [List.append_cancel_left inside, cut, List.take_left]
    unfold Cursor.literal?
    rw [opener']
    simp only
    rw [← List.take_append_drop w.length (c'.ahead.drop j), there, stable]
  · obtain ⟨rest', here', tail⟩ := behind here rfl
    have there := (stringLength?_settled _ _ found).of_take tail
    unfold Cursor.literal?
    rw [plain noOpener, here']
    simp only
    rw [there]
  · obtain ⟨rest', here', tail⟩ := behind here rfl
    obtain ⟨w, z, rfl, isTail, rfl⟩ := exists_of_characterLength? found
    rw [List.take_left] at tail
    unfold Cursor.literal?
    rw [plain noOpener, here', ← List.take_append_drop w.length rest', tail]
    simp only
    rw [characterLength?_append isTail]
  · omega

/-- A lexeme of more than one character that the text goes on behind is one wherever its text
stands and no raw string opens that does not open here. -/
theorem lexeme?_of_take {c c' : Cursor} {n : Nat} (hl : c.lexeme? = .ok (some n)) (long : 1 < n)
    (more : n < c.ahead.length) (same : c'.ahead.take n = c.ahead.take n)
    (start : c'.atWordStart = c.atWordStart) (plain : c.rawOpener? = none → c'.rawOpener? = none) :
    c'.lexeme? = .ok (some n) := by
  rw [lexeme?_some_iff] at hl ⊢
  rcases hl with comment | ⟨noComment, literal⟩
  · exact .inl (comment?_of_take comment more same)
  · refine .inr ⟨?_, literal?_of_take literal long same start plain⟩
    obtain ⟨line, block⟩ := Cursor.comment?_none noComment
    have kept (b : Char) (absent : ∀ rest, c.ahead ≠ '/' :: b :: rest) :
        ∀ rest, c'.ahead ≠ '/' :: b :: rest := by
      intro rest' here
      have fewer := congrArg (List.take 2) same
      rw [List.take_take, List.take_take, Nat.min_eq_left long, here] at fewer
      refine absent (c.ahead.drop 2) ?_
      rw [← List.take_append_drop 2 c.ahead, ← fewer]
      rfl
    exact comment?_eq_none (kept '/' line) (kept '*' block)

/-! ## §3. Cursors that agree. -/

/-- The text from `c` up to offset `e` is the text from `c'` up to offset `e'`, with the same
character before it and a fence behind it. -/
structure Agree (e e' : Nat) (c c' : Cursor) : Prop where
  before : c'.before = c.before
  ahead : ∃ u s s', c.ahead = u ++ s ∧ c'.ahead = u ++ s' ∧ c.offset + u.length = e
    ∧ c'.offset + u.length = e' ∧ Fence u s s'

variable {e e' k : Nat} {c c' d : Cursor}

namespace Agree

theorem le (h : Agree e e' c c') : c.offset ≤ e := by
  obtain ⟨u, s, s', eq, eq', len, len', fence⟩ := h.ahead
  omega

theorem place (h : Agree e e' c c') : c'.offset + e = c.offset + e' := by
  obtain ⟨u, s, s', eq, eq', len, len', fence⟩ := h.ahead
  omega

/-- The stretch is in both texts. -/
theorem length_le (h : Agree e e' c c') :
    e ≤ c.offset + c.ahead.length ∧ e' ≤ c'.offset + c'.ahead.length := by
  obtain ⟨u, s, s', eq, eq', len, len', fence⟩ := h.ahead
  rw [eq, eq', List.length_append, List.length_append]
  omega

theorem take (h : Agree e e' c c') (le : c.offset + k ≤ e) :
    c'.ahead.take k = c.ahead.take k := by
  obtain ⟨u, s, s', eq, eq', len, len', fence⟩ := h.ahead
  rw [eq, eq', List.take_append_of_le_length (by omega), List.take_append_of_le_length (by omega)]

theorem getElem? (h : Agree e e' c c') (lt : c.offset + k < e) :
    c'.ahead[k]? = c.ahead[k]? := by
  obtain ⟨u, s, s', eq, eq', len, len', fence⟩ := h.ahead
  rw [eq, eq', List.getElem?_append_left (by omega), List.getElem?_append_left (by omega)]

theorem head? (h : Agree e e' c c') (lt : c.offset < e) : c'.ahead.head? = c.ahead.head? := by
  rw [List.head?_eq_getElem?, List.head?_eq_getElem?]
  exact h.getElem? (by omega)

theorem advance (h : Agree e e' c c') (le : c.offset + k ≤ e) :
    Agree e e' (c.advance k) (c'.advance k) := by
  have before : (c'.advance k).before = (c.advance k).before := by
    show (if k = 0 then c'.before else c'.ahead[k - 1]?) = if k = 0 then c.before else c.ahead[k - 1]?
    by_cases zero : k = 0
    · rw [if_pos zero, if_pos zero, h.before]
    · rw [if_neg zero, if_neg zero, h.getElem? (by omega)]
  obtain ⟨u, s, s', eq, eq', len, len', fence⟩ := h.ahead
  refine ⟨before, u.drop k, s, s', ?_, ?_, ?_, ?_, fence.drop k⟩
  · rw [advance_ahead, eq, List.drop_append_of_le_length (by omega)]
  · rw [advance_ahead, eq', List.drop_append_of_le_length (by omega)]
  · rw [advance_offset, List.length_drop]
    omega
  · rw [advance_offset, List.length_drop]
    omega

theorem leadsTo (h : Agree e e' c c') (le : c.offset + k ≤ e) : c'.LeadsTo (c'.advance k) := by
  have := h.length_le
  have := h.place
  have := h.le
  exact leadsTo_advance (by omega)

theorem upTo {i i' : Nat} (h : Agree e e' c c') (le : i ≤ e) (same : i' + e = i + e') :
    c'.upTo i' = c.upTo i := by
  have := h.place
  have := h.le
  unfold Cursor.upTo
  rw [show i' - c'.offset = i - c.offset from by omega]
  by_cases forward : c.offset ≤ i
  · exact h.take (by omega)
  · rw [show i - c.offset = 0 from by omega, List.take_zero, List.take_zero]

theorem sees {word : Text} (h : Agree e e' c c') (le : c.offset + word.length ≤ e) :
    c'.sees word = c.sees word := by
  unfold Cursor.sees Text.startsWith
  rw [Bool.eq_iff_iff, List.isPrefixOf_iff_prefix, List.isPrefixOf_iff_prefix,
    List.prefix_iff_eq_take, List.prefix_iff_eq_take, h.take le]

/-! ## §4. Lexemes. -/

theorem atWordStart (h : Agree e e' c c') : c'.atWordStart = c.atWordStart := by
  rw [Cursor.atWordStart, Cursor.atWordStart, h.before]

/-- The text goes on behind the stretch, or both texts end with it. -/
theorem more_or_same (h : Agree e e' c c') : e < c.offset + c.ahead.length ∨ c'.ahead = c.ahead := by
  obtain ⟨u, s, s', eq, eq', len, len', fence⟩ := h.ahead
  by_cases more : s = []
  · right
    rw [eq, eq', more, fence.more more]
  · left
    have := List.length_pos_iff.mpr more
    rw [eq, List.length_append]
    omega

theorem comment?_some (h : Agree e e' c c') (hc : c.comment? = .ok (some k))
    (le : c.offset + k ≤ e) : c'.comment? = .ok (some k) := by
  rcases h.more_or_same with more | same
  · exact comment?_of_take hc (by omega) (h.take le)
  · exact comment?_of_same same hc

theorem comment?_none (h : Agree e e' c c') (lt : c.offset < e) (hc : c.comment? = .ok none) :
    c'.comment? = .ok none := by
  obtain ⟨line, block⟩ := Cursor.comment?_none hc
  obtain ⟨u, s, s', eq, eq', len, len', fence⟩ := h.ahead
  have kept (b : Char) (ne : isFence b = false) (absent : ∀ rest, c.ahead ≠ '/' :: b :: rest) :
      ∀ rest, c'.ahead ≠ '/' :: b :: rest := by
    intro rest' here
    rw [eq'] at here
    match u with
    | [] =>
        rw [List.length_nil] at len
        omega
    | [a] =>
        rw [fence.stop b rest' (List.cons.inj here).2] at ne
        cases ne
    | a :: x :: u =>
        rw [(List.cons.inj here).1, (List.cons.inj (List.cons.inj here).2).1] at eq
        exact absent (u ++ s) eq
  exact comment?_eq_none (kept '/' rfl line) (kept '*' rfl block)

theorem rawOpener?_none (h : Agree e e' c c') (hc : c.rawOpener? = none) :
    c'.rawOpener? = none := by
  cases found : c'.rawOpener? with
  | none => rfl
  | some x =>
      exfalso
      obtain ⟨k, hashes⟩ := x
      obtain ⟨start, opener⟩ := Cursor.rawOpener?_some found
      obtain ⟨letters, mem, w, eq, rfl⟩ := exists_of_rawOpener? opener
      obtain ⟨u, s, s', ahead, ahead', len, len', fence⟩ := h.ahead
      have noOpener (v : Text) : u ≠ opening letters hashes ++ v := by
        intro inside
        have here := rawOpener?_opening mem hashes (v ++ s)
        rw [Cursor.rawOpener?, if_pos (h.atWordStart.symm.trans start), ahead,
          inside, List.append_assoc, here] at hc
        cases hc
      have whole : u ++ s' = opening letters hashes ++ w := by
        rw [← ahead', eq, opening]
        simp
      rcases List.append_eq_append_iff.mp whole with ⟨v, inside, beyond⟩ | ⟨v, inside, beyond⟩
      · cases v with
        | nil =>
            rw [List.append_nil] at inside
            exact noOpener [] (by rw [List.append_nil, inside])
        | cons x v =>
            -- the opener goes past the stretch, so the fence would be one of its characters
            obtain ⟨word, _, _, hash, quote, _⟩ := isFence_ne (fence.stop x (v ++ w) beyond)
            have part : x ∈ opening letters hashes := by
              rw [inside]
              simp
            rcases mem_opening mem part with letter | rfl | rfl
            · rw [word] at letter
              cases letter
            · exact hash rfl
            · exact quote rfl
      · exact noOpener v inside

theorem literal?_some (h : Agree e e' c c') (hl : c.literal? = .ok (some k))
    (le : c.offset + k ≤ e) : c'.literal? = .ok (some k) := by
  have pos := (literal?_bounds hl).1
  by_cases long : 1 < k
  · exact literal?_of_take hl long (h.take le) h.atWordStart h.rawOpener?_none
  · -- a tick is one as long as nothing behind the stretch completes a character
    obtain ⟨noOpener, rest, here, found⟩ : c.rawOpener? = none ∧ ∃ rest, c.ahead = '\'' :: rest
        ∧ characterLength? rest = none := by
      rcases Cursor.literal?_some hl with ⟨j, _, _, opener, _, rfl⟩ | ⟨_, rest, m, _, found, rfl⟩
          | ⟨_, rest, m, _, found, rfl⟩ | ⟨noOpener, rest, here, found, rfl⟩
      · obtain ⟨_, _, _, _, rfl⟩ := exists_of_rawOpener? (Cursor.rawOpener?_some opener).2
        omega
      · obtain ⟨u, v, _, rfl, settled⟩ := stringLength?_settled _ _ found
        cases u with
        | nil => cases settled []
        | cons x u =>
            rw [List.length_cons] at long
            omega
      · obtain ⟨w, _, _, isTail, rfl⟩ := exists_of_characterLength? found
        cases isTail <;> simp at long
      · exact ⟨noOpener, rest, here, found⟩
    obtain rfl : k = 1 := by omega
    obtain ⟨u, s, s', eq, eq', len, len', fence⟩ := h.ahead
    cases u with
    | nil =>
        rw [List.length_nil] at len
        omega
    | cons x v =>
        rw [eq] at here
        obtain ⟨rfl, rfl⟩ := List.cons.inj here
        unfold Cursor.literal?
        rw [h.rawOpener?_none noOpener, eq', List.cons_append]
        simp only
        rw [fence.tick [] v rfl found]

theorem literal?_none (h : Agree e e' c c') (lt : c.offset < e) (hl : c.literal? = .ok none) :
    c'.literal? = .ok none := by
  obtain ⟨noOpener, string, tick⟩ := Cursor.literal?_none hl
  have same := h.head? lt
  have kept (a : Char) (absent : ∀ rest, c.ahead ≠ a :: rest) : ∀ rest, c'.ahead ≠ a :: rest := by
    intro rest here
    rw [here, List.head?_cons] at same
    obtain ⟨rest', here⟩ := List.head?_eq_some_iff.mp same.symm
    exact absent rest' here
  exact literal?_eq_none (h.rawOpener?_none noOpener) (kept _ string) (kept _ tick)

/-- **A lexeme within the stretch is a lexeme of both texts.** -/
theorem lexeme?_some (h : Agree e e' c c') (hl : c.lexeme? = .ok (some k))
    (le : c.offset + k ≤ e) : c'.lexeme? = .ok (some k) := by
  have pos := (lexeme?_bounds hl).1
  rw [lexeme?_some_iff] at hl ⊢
  rcases hl with comment | ⟨noComment, literal⟩
  · exact .inl (h.comment?_some comment le)
  · exact .inr ⟨h.comment?_none (by omega) noComment, h.literal?_some literal le⟩

/-- **Where no lexeme starts in the first text**, none does in the second. -/
theorem lexeme?_none (h : Agree e e' c c') (lt : c.offset < e) (hl : c.lexeme? = .ok none) :
    c'.lexeme? = .ok none := by
  rw [lexeme?_none_iff] at hl ⊢
  exact ⟨h.comment?_none lt hl.1, h.literal?_none lt hl.2⟩

/-! ## §5. Trivia. -/

theorem startsDocComment_congr {t t' : Text} (same : t'.take 4 = t.take 4) :
    startsDocComment t' = startsDocComment t := by
  have starts (word : Text) (short : word.length ≤ 4) : t'.startsWith word = t.startsWith word := by
    unfold Text.startsWith
    have fewer := congrArg (List.take word.length) same
    rw [List.take_take, List.take_take, Nat.min_eq_left short] at fewer
    rw [Bool.eq_iff_iff, List.isPrefixOf_iff_prefix, List.isPrefixOf_iff_prefix,
      List.prefix_iff_eq_take, List.prefix_iff_eq_take, fewer]
  unfold startsDocComment
  rw [starts "///" (by decide), starts "////" (by decide), starts "/**" (by decide),
    starts "/***" (by decide), starts "/**/" (by decide)]

/-- A comment is a doc comment in both texts or in neither. -/
theorem startsDocComment_eq (h : Agree e e' c c') (hc : c.comment? = .ok (some k))
    (le : c.offset + k ≤ e) : startsDocComment c'.ahead = startsDocComment c.ahead := by
  rcases h.more_or_same with more | same
  case inr => rw [same]
  have further : c.offset + k < c.offset + c.ahead.length := by omega
  by_cases four : 4 ≤ k
  · exact startsDocComment_congr (h.take (by omega))
  · -- a comment this short is two slashes and a line feed
    rcases Cursor.comment?_some hc with ⟨rest, slashes, rfl⟩ | ⟨rest, opener, found⟩
    · have feed : ∃ rest', c.ahead = '/' :: '/' :: '\n' :: rest' := by
        rw [slashes] at four further
        match rest with
        | [] =>
            simp [lineLength] at further
        | x :: rest =>
            by_cases same : x = '\n'
            · exact ⟨rest, by rw [slashes, same]⟩
            · exfalso
              rw [lineLength, if_neg (by decide), lineLength, if_neg (by decide), lineLength,
                if_neg same] at four further
              have pos : rest ≠ [] := by
                intro none
                subst none
                simp [lineLength] at further
              have := lineLength_pos pos
              omega
      obtain ⟨rest', feed⟩ := feed
      have three : lineLength c.ahead = 3 := by
        rw [feed]
        simp [lineLength]
      have same := h.take (k := 3) (by omega)
      have feed' : c'.ahead = '/' :: '/' :: '\n' :: c'.ahead.drop 3 := by
        rw [feed] at same
        conv_lhs => rw [← List.take_append_drop 3 c'.ahead, same]
        rfl
      rw [feed, feed']
      rfl
    · exfalso
      rw [opener, blockLength?] at found
      obtain ⟨m, hm, rfl⟩ := Option.map_eq_some_iff.mp found
      have := two_le_blockLength? _ _ _ hm
      omega

variable {keepDocs : Bool}

theorem trivium?_some (h : Agree e e' c c') (ht : c.trivium? keepDocs = .ok (some k))
    (le : c.offset + k ≤ e) : c'.trivium? keepDocs = .ok (some k) := by
  have pos := (trivium?_bounds ht).1
  obtain ⟨ch, first, spec⟩ := Cursor.trivium?_some ht
  have first' := h.head? (by omega)
  rw [first] at first'
  obtain ⟨rest, eq⟩ := List.head?_eq_some_iff.mp first'
  unfold trivium?
  rw [eq]
  simp only
  rcases spec with ⟨blank, rfl⟩ | ⟨plain, noDoc, comment⟩
  · rw [if_pos blank]
  · rw [← eq, h.startsDocComment_eq comment le, if_neg (by simp [plain]), if_neg (by simp [noDoc])]
    exact h.comment?_some comment le

theorem trivium?_none (h : Agree e e' c c') (lt : c.offset < e)
    (ht : c.trivium? keepDocs = .ok none) (noDoc : (keepDocs && startsDocComment c.ahead) = false) :
    c'.trivium? keepDocs = .ok none := by
  obtain ⟨plain, comment⟩ := Cursor.trivium?_none ht
  have comment : c.comment? = .ok none := by
    rcases comment with doc | comment
    · rw [noDoc] at doc
      cases doc
    · exact comment
  have comment' := h.comment?_none lt comment
  have noDoc' : startsDocComment c'.ahead = false := by
    rw [Bool.eq_false_iff]
    intro doc
    exact comment?_of_startsDocComment doc comment'
  have first' := h.head? lt
  unfold trivium?
  split
  next => rfl
  next ch rest eq =>
    rw [eq, List.head?_cons] at first'
    rw [if_neg (by simp [plain ch first'.symm]), noDoc', Bool.and_false,
      if_neg Bool.false_ne_true]
    exact comment'

/-- Trivia lead to corresponding places. -/
theorem trivia (h : Agree e e' c c') (ht : Trivia false c d) (lt : d.offset < e) :
    ∃ d', Agree e e' d d' ∧ Trivia false c' d' := by
  induction ht generalizing c' with
  | @stop c ht => exact ⟨c', h, .stop (h.trivium?_none lt ht rfl)⟩
  | @pass c d n hn rest ih =>
      have forward := rest.leadsTo.offset_le
      rw [advance_offset] at forward
      obtain ⟨d', agree, ht'⟩ := ih (h.advance (by omega)) lt
      exact ⟨d', agree, .pass (h.trivium?_some hn (by omega)) ht'⟩

/-- Trivia that come by a place `x` of the stretch are trivia of the second text up to there,
whatever they lead to behind it. -/
theorem trivia_by {o x : Cursor} {m n : Int} (h : Agree e e' c c') (ht : Trivia keepDocs c d)
    (level : Level o c m) (hx : Level o x n) (ge : c.offset ≤ x.offset) (le : x.offset ≤ d.offset)
    (inside : x.offset ≤ e) :
    ∃ x', Agree e e' x x' ∧ c'.LeadsTo x' ∧ ∀ y, Trivia keepDocs x' y → Trivia keepDocs c' y := by
  induction ht generalizing c' m with
  | @stop c _ =>
      obtain rfl : c = x := level.eq_of_offset hx (by omega)
      exact ⟨c', h, .refl c', fun y hy => hy⟩
  | @pass c d k hk rest ih =>
      rcases Nat.lt_or_ge c.offset x.offset with after | before
      · have within := level.trivium_le hx after hk
        obtain ⟨x', agree, onward, lead⟩ := ih (h.advance (by omega)) (level.trivium hk) within le
        exact ⟨x', agree, (h.leadsTo (by omega)).trans onward,
          fun y hy => .pass (h.trivium?_some hk (by omega)) (lead y hy)⟩
      · obtain rfl : c = x := level.eq_of_offset hx (by omega)
        exact ⟨c', h, .refl c', fun y hy => hy⟩

end Agree

/-! ## §6. Code. -/

/-- The code of two stretches that agree: the same characters at corresponding places. -/
def SameCode (e e' : Nat) (code code' : List (Cursor × Char)) : Prop :=
  List.Forall₂ (fun x x' => x'.2 = x.2 ∧ Agree e e' x.1 x'.1) code code'

theorem SameCode.chars_eq {code code' : List (Cursor × Char)} (h : SameCode e e' code code') :
    chars code' = chars code := by
  induction h with
  | nil => rfl
  | cons here _ ih => rw [chars_cons, chars_cons, here.1, ih]

/-- **Both stretches are read to the same code.** -/
theorem Agree.reads {code : List (Cursor × Char)} (h : Agree e e' c c') (r : Reads c code d)
    (le : d.offset ≤ e) :
    ∃ code' d', Reads c' code' d' ∧ Agree e e' d d' ∧ SameCode e e' code code' := by
  induction r generalizing c' with
  | here c => exact ⟨[], c', .here c', h, .nil⟩
  | @lexeme c d code n hl rest ih =>
      have forward := rest.offset_le
      rw [advance_offset] at forward
      obtain ⟨code', d', reads, agree, same⟩ := ih (h.advance (by omega)) le
      exact ⟨code', d', .lexeme (h.lexeme?_some hl (by omega)) reads, agree, same⟩
  | @char c d code ch hl first rest ih =>
      have forward := rest.offset_le
      rw [advance_offset] at forward
      obtain ⟨code', d', reads, agree, same⟩ := ih (h.advance (by omega)) le
      have first' := h.head? (by omega)
      rw [first] at first'
      exact ⟨(c', ch) :: code', d', .char (h.lexeme?_none (by omega) hl) first' reads, agree,
        .cons ⟨rfl, h⟩ same⟩

/-- **A bracket closes in both texts at the same place.** -/
theorem Agree.closing (h : Agree e e' c c') (hd : c.closing = .ok d) (lt : d.offset < e) :
    ∃ d', c'.closing = .ok d' ∧ Agree e e' d d' := by
  obtain ⟨code, encloses⟩ := closing_ok_iff.mp hd
  have forward := encloses.lt
  obtain ⟨code', d', reads, agree, same⟩ :=
    (h.advance (k := 1) (by omega)).reads encloses.reads (by omega)
  obtain ⟨opener, closer, first, pair, last⟩ := encloses.closes
  refine ⟨d', closing_ok_iff.mpr ⟨code', reads, ?_, opener, closer, ?_, pair, ?_⟩, agree⟩
  · rw [same.chars_eq]
    exact encloses.nests
  · rw [h.head? (by omega)]
    exact first
  · rw [agree.head? lt]
    exact last

/-! ## §7. The character before a place. -/

/-- What starts at a place depends on the text ahead and on whether a word goes on there. -/
theorem lexeme?_congr (offset : c'.offset = c.offset) (ahead : c'.ahead = c.ahead)
    (start : c'.atWordStart = c.atWordStart) : c'.lexeme? = c.lexeme? := by
  unfold lexeme? comment? literal? rawOpener? fail
  rw [offset, ahead, start]

theorem advance_congr (offset : c'.offset = c.offset) (ahead : c'.ahead = c.ahead) (pos : 0 < k) :
    c'.advance k = c.advance k := by
  unfold advance
  rw [offset, ahead, if_neg (by omega), if_neg (by omega)]

end Cursor

end EnumExtract
