/-
  EnumExtract.Proofs.Nesting
  ────────────────────────────────
  Brackets inside brackets.

  The search for a closing bracket starts anew at every opening one, with
  nothing awaited.  All searches read the same text in the same way, so what a
  search from inside a bracket finds is settled by the search that has come
  by: the brackets on its way nest, hence each of them closes before the outer
  one does, and two of them are apart or one is inside the other.

      ( a [ b ] '(' /* ) */ { c } )
      │   └───┘             └───┘ │
      └───────────────────────────┘

  Main results:
    • `Encloses.exists_inner`   a bracket inside another one closes inside it,
    • `Encloses.apart`          of two brackets one is behind the other or in it,
    • `Text.closes_nested`      both, by offsets, and whatever of the text is
                                left behind the closing bracket.
-/
import EnumExtract.Proofs.Agree

namespace EnumExtract

namespace Cursor

variable {c d x y : Cursor} {code pre inside : List (Cursor × Char)}

/-! ## §1. What the search comes by. -/

/-- The search for a closing bracket reads, and awaits the closers of what is open. -/
theorem reads_of_walksTo {awaited awaited' : List Char}
    (h : WalksTo bracketStep awaited c awaited' d) :
    ∃ code, Reads c code d ∧ nest awaited (chars code) = some awaited' := by
  induction h with
  | here awaited c => exact ⟨[], .here c, rfl⟩
  | move more step _ ih =>
      obtain ⟨code, reads, nests⟩ := ih
      rcases bracketStep_move more step with ⟨lexeme, rfl⟩ | ⟨ch, plain, first, rfl, _, here⟩
      · exact ⟨code, .lexeme lexeme reads, nests⟩
      · refine ⟨_, .char plain first reads, ?_⟩
        rw [chars_cons, nest_cons, here]
        exact nests

/-- The closer of an opening bracket is no opening bracket. -/
theorem Encloses.not_opener (h : Encloses c code d) {opener closer : Char}
    (first : d.ahead.head? = some opener) : closer? opener ≠ some closer := by
  intro pair
  obtain ⟨_, _, _, pair', last⟩ := h.closes
  rw [first] at last
  cases last
  rw [closer?_of_isCloser (isCloser_of_closer? pair').1] at pair
  cases pair

/-! ## §2. Brackets inside a bracket. -/

/-- **A bracket inside another one closes inside it.** -/
theorem Encloses.exists_inner (h : Encloses c code d) (hx : Reads c pre x) {opener closer : Char}
    (first : x.ahead.head? = some opener) (pair : closer? opener = some closer)
    (after : c.offset < x.offset) (before : x.offset < d.offset) :
    ∃ inside y, Encloses x inside y ∧ y.offset < d.offset := by
  have level := (Level.start c).reads hx
  -- there is one way of reading, so `x` is on the way from behind the opener to `d`
  have behind : ∃ more, Reads (c.advance 1) more x := by
    obtain ⟨o, k, hfirst, hpair, _⟩ := h.closes
    have opens := ((Level.start c).bracket hfirst (.inl (by rw [hpair]; rfl))).next
    obtain ⟨more, reads, _⟩ := opens.reads_to level after
    exact ⟨more, reads⟩
  obtain ⟨more, toInner⟩ := behind
  obtain ⟨rest, rfl, fromInner⟩ := toInner.split h.reads (Nat.le_of_lt before)
  -- what is open at `x` is closed by the time that `d` is reached
  have nests := h.nests
  rw [chars_append] at nests
  obtain ⟨awaited, _, nests⟩ := nest_append nests
  exact exists_encloses fromInner first pair before nests

/-- **Of two brackets that a reading comes to, one is behind the other or inside it.** -/
theorem Encloses.apart (h : Encloses c code d) (h' : Encloses x inside y) (hx : Reads c pre x)
    (after : c.offset < x.offset) : d.offset < x.offset ∨ y.offset < d.offset := by
  obtain ⟨opener, closer, first, pair, _⟩ := h'.closes
  rcases Nat.lt_trichotomy x.offset d.offset with before | same | behind
  case inr.inr => exact .inl behind
  case inr.inl =>
    -- the closer of the first bracket would be the opener of the second one
    have level := (Level.start c).reads hx
    have here := level.eq_of_offset (h.level_closer (.start c)) same
    exact absurd pair (h.not_opener (here ▸ first))
  case inl =>
    -- a bracket has one closer, so the one found inside is `y`
    obtain ⟨inner, z, encloses, within⟩ := h.exists_inner hx first pair after before
    have found := closing_ok_iff.mpr ⟨inner, encloses⟩
    rw [closing_ok_iff.mpr ⟨inside, h'⟩] at found
    cases found
    exact .inr within

end Cursor

/-! ## §3. Brackets of a text, by their offsets. -/

namespace Text

open Cursor

variable {t : Text} {i j p q p' q' : Nat}

/-- The bracket at offset `i` is closed by the one at offset `j`. -/
def ClosesAt (t : Text) (i j : Nat) : Prop :=
  (t.cursor i).closing.map (·.offset) = .ok j

/-- The search for the bracket that closes the one at offset `i` comes to another opening bracket at
offset `p`, outside of comments and literals. -/
structure Meets (t : Text) (i p : Nat) : Prop where
  inside : i < p
  opens : ∃ opener, t[p]? = some opener ∧ (closer? opener).isSome = true
  comes : ∃ awaited, WalksTo bracketStep [] (t.cursor i) awaited (t.cursor p)

theorem lt_length_of_head? {ch : Char} (h : (t.cursor i).ahead.head? = some ch) : i < t.length := by
  rw [head?_cursor] at h
  exact (List.getElem?_eq_some_iff.mp h).1

theorem closesAt_iff : t.ClosesAt i j ↔ ∃ code, Encloses (t.cursor i) code (t.cursor j) := by
  rw [← closing_ok_iff]
  constructor
  · intro h
    cases hd : (t.cursor i).closing with
    | error fault =>
        rw [ClosesAt, hd] at h
        cases h
    | ok d =>
        rw [ClosesAt, hd] at h
        cases h
        obtain ⟨code, encloses⟩ := closing_ok_iff.mp hd
        obtain ⟨_, _, first, _, last⟩ := encloses.closes
        have start := leadsTo_cursor (Nat.le_of_lt (lt_length_of_head? first))
        have toCloser := start.trans ((leadsTo_first first).trans encloses.reads.leadsTo)
        rw [← cursor_of_leadsTo toCloser]
  · intro h
    rw [ClosesAt, h]
    rfl

theorem Meets.reads (h : t.Meets i p) : ∃ code, Reads (t.cursor i) code (t.cursor p) := by
  obtain ⟨_, walk⟩ := h.comes
  obtain ⟨code, reads, _⟩ := reads_of_walksTo walk
  exact ⟨code, reads⟩

/-- A text and a prefix of it agree up to the end of the prefix. -/
theorem agree_take {n : Nat} (le : i ≤ n) (fits : n ≤ t.length) :
    Agree n n (t.cursor i) (Text.cursor (t.take n) i) := by
  refine ⟨?_, (t.take n).drop i, t.drop n, [], ?_, ?_, ?_, ?_, .alone _ _⟩
  · show (if i = 0 then none else (t.take n)[i - 1]?) = if i = 0 then none else t[i - 1]?
    by_cases zero : i = 0
    · rw [if_pos zero, if_pos zero]
    · rw [if_neg zero, if_neg zero, List.getElem?_take_of_lt (by omega)]
  · show t.drop i = (t.take n).drop i ++ t.drop n
    conv_lhs => rw [← List.take_append_drop n t]
    rw [List.drop_append_of_le_length (by rw [List.length_take]; omega)]
  · rw [List.append_nil]
    rfl
  · rw [List.length_drop, List.length_take]
    show i + (min n t.length - i) = n
    omega
  · rw [List.length_drop, List.length_take]
    show i + (min n t.length - i) = n
    omega

/-- What stands behind the closing bracket does not matter. -/
theorem ClosesAt.take (h : t.ClosesAt i j) {n : Nat} (lt : j < n) (fits : n ≤ t.length) :
    ClosesAt (t.take n) i j := by
  obtain ⟨code, encloses⟩ := closesAt_iff.mp h
  have forward : i < j := encloses.lt
  obtain ⟨d, found, agree⟩ := (agree_take (by omega) fits).closing
    (closing_ok_iff.mpr ⟨code, encloses⟩) lt
  have place := agree.place
  rw [ClosesAt, found]
  show Except.ok d.offset = .ok j
  rw [Nat.add_right_cancel place]
  rfl

/-- **Brackets nest.**  A closing bracket stands behind its opener.  Every opening bracket that the
search for it meets in between is closed in between, two of these are apart or one is inside the
other, and the search finds the same in every prefix of the text that holds the closing bracket. -/
theorem closes_nested (h : t.ClosesAt i j) :
    i < j
      ∧ (∃ opener closer, t[i]? = some opener ∧ t[j]? = some closer ∧ closer? opener = some closer)
      ∧ (∀ p, t.Meets i p → p < j → ∃ q, t.ClosesAt p q ∧ p < q ∧ q < j)
      ∧ (∀ p p' q q', t.Meets i p → t.Meets i p' → p < p' → t.ClosesAt p q → t.ClosesAt p' q' →
          q < p' ∨ q' < q)
      ∧ ∀ n, j < n → n ≤ t.length → ClosesAt (t.take n) i j := by
  obtain ⟨code, encloses⟩ := closesAt_iff.mp h
  refine ⟨encloses.lt, ?_, ?_, ?_, fun n lt fits => h.take lt fits⟩
  · obtain ⟨opener, closer, first, pair, last⟩ := encloses.closes
    exact ⟨opener, closer, head?_cursor t i ▸ first, head?_cursor t j ▸ last, pair⟩
  · intro p met before
    obtain ⟨pre, reads⟩ := met.reads
    obtain ⟨opener, first, opens⟩ := met.opens
    obtain ⟨closer, pair⟩ := Option.isSome_iff_exists.mp opens
    rw [← head?_cursor] at first
    obtain ⟨inside, y, inner, within⟩ := encloses.exists_inner reads first pair met.inside before
    refine ⟨y.offset, ?_, inner.lt, within⟩
    rw [ClosesAt, closing_ok_iff.mpr ⟨inside, inner⟩]
    rfl
  · intro p p' q q' met met' order closes closes'
    obtain ⟨_, outer⟩ := closesAt_iff.mp closes
    obtain ⟨_, inner⟩ := closesAt_iff.mp closes'
    obtain ⟨_, reads⟩ := met.reads
    obtain ⟨_, reads'⟩ := met'.reads
    obtain ⟨_, between, _⟩ := ((Level.start _).reads reads).reads_to ((Level.start _).reads reads')
      (Nat.le_of_lt order)
    exact outer.apart inner between order

/-- The bracket in the character literal is none that the search meets. -/
theorem closes_nested_character :
    ClosesAt "('(' [x]) y" 0 8 ∧ Meets "('(' [x]) y" 0 5
      ∧ (∃ q, ClosesAt "('(' [x]) y" 5 q ∧ 5 < q ∧ q < 8) ∧ ClosesAt "('(' [x])" 0 8 := by
  have closes : ClosesAt "('(' [x]) y" 0 8 := rfl
  have meets : Meets "('(' [x]) y" 0 5 :=
    ⟨by decide, ⟨'[', rfl, rfl⟩,
      [')'], .move nofun rfl (.move nofun rfl (.move nofun rfl (.here _ _)))⟩
  obtain ⟨_, _, inner, _, shorter⟩ := closes_nested closes
  exact ⟨closes, meets, inner 5 meets (by decide), shorter 9 (by decide) (by decide)⟩

end Text

end EnumExtract
