/-
  EnumExtract.Proofs.Grammar.OptionLists
  ────────────────────────────────
  Lists of options as they are written, and which texts are read as lists.

      list      blanks, or options with commas between them and perhaps one behind
      option    a name, and perhaps a group, with blanks around both
      group     a text in parentheses that holds none

  The reader asks for no comma between two options.  It takes the comma behind
  an option where there is one, and where there is none the next option may
  stand there all the same, as long as a blank or the group of the first keeps
  the two names apart.  `OptionsAt false` is the grammar above, and
  `OptionsAt true` the one in which commas may be missing.

  Main results:
    • `at?_eq`               an option is read as it is written,
    • `readList_ok_iff`      a text is read if and only if it is a list in which
                             commas may be missing,
    • `readList_outcome`     a text that is no such list is a parse error,
    • `missingComma_read`    and a list without its comma is no error.
-/
import EnumExtract.Proofs.Grammar.Attributes
import EnumExtract.Schema.ExtractOptions

namespace EnumExtract

open Cursor

namespace WrittenOption

/-! ## §1. Options. -/

/-- What stands behind the name of an option whose value is `v`. -/
inductive IsGroup : Option Text → Text → Prop where
  | absent : IsGroup none []
  | present {b v : Text} (blank : IsGap b) (flat : ∀ ch ∈ v, ch ≠ '(' ∧ ch ≠ ')') :
      IsGroup (some v) (b ++ ('(' :: (v ++ [')'])))

/-- The text writes the option with blanks around it, from offset `i` on. -/
inductive IsWritten (i : Nat) : WrittenOption → Text → Prop where
  | mk {b n g b' : Text} {v : Option Text} (before : IsGap b) (isName : IsName n) (group : IsGroup v g)
      (behind : IsGap b') : IsWritten i ⟨n, v, i + b.length⟩ (b ++ (n ++ (g ++ b')))

/-- The text writes the options from offset `i` on, with a comma between neighbours; if `spared`, the
comma may be missing between two options that are kept apart without it. -/
inductive OptionsAt (spared : Bool) : Nat → List WrittenOption → Text → Prop where
  | blank {i : Nat} {b : Text} (h : IsGap b) : OptionsAt spared i [] b
  | last {i : Nat} {o : WrittenOption} {u : Text} (h : o.IsWritten i u) : OptionsAt spared i [o] u
  | comma {i : Nat} {o : WrittenOption} {os : List WrittenOption} {u t : Text} (h : o.IsWritten i u)
      (rest : OptionsAt spared (i + u.length + 1) os t) : OptionsAt spared i (o :: os) (u ++ ',' :: t)
  | juxtaposed {i : Nat} {o : WrittenOption} {os : List WrittenOption} {u t : Text} (loose : spared = true)
      (h : o.IsWritten i u) (ends : ∀ ch, u.getLast? = some ch → isWord ch = false)
      (begins : ∃ ch v, t = ch :: v ∧ isNameStart ch = true)
      (rest : OptionsAt spared (i + u.length) os t) : OptionsAt spared i (o :: os) (u ++ t)

/-- A list with all its commas is a list in which commas may be missing. -/
theorem OptionsAt.loosen {spared : Bool} {i : Nat} {os : List WrittenOption} {t : Text}
    (h : OptionsAt spared i os t) : OptionsAt true i os t := by
  induction h with
  | blank h => exact .blank h
  | last h => exact .last h
  | comma h _ ih => exact .comma h ih
  | juxtaposed _ h ends begins _ ih => exact .juxtaposed rfl h ends begins ih

/-! ## §2. The parts of what is read. -/

/-- The length of the comma that the text begins with, if it begins with one. -/
def commaLength (w : Text) : Nat :=
  if Text.startsWith w "," then 1 else 0

theorem commaLength_of_ne {ch : Char} {v : Text} (h : ch ≠ ',') : commaLength (ch :: v) = 0 := by
  have other : Text.startsWith (ch :: v) "," = false := by
    show (',' == ch && List.isPrefixOf [] v) = false
    rw [beq_eq_false_iff_ne.mpr h.symm, Bool.false_and]
  rw [commaLength, other]
  rfl

theorem commaLength_le (w : Text) : commaLength w ≤ w.length := by
  cases w with
  | nil => exact Nat.le_refl _
  | cons ch v =>
      rw [commaLength]
      split
      · exact Nat.le_add_left _ _
      · exact Nat.zero_le _

/-- A text that begins with an option: blanks, name, group, blanks, and what stands behind them. -/
structure Front (t b n : Text) (v : Option Text) (g b' w : Text) : Prop where
  eq : t = b ++ (n ++ (g ++ (b' ++ w)))
  before : IsGap b
  isName : IsName n
  group : IsGroup v g
  behind : IsGap b'
  /-- The name is read to its end. -/
  apart : ∀ ch, (g ++ (b' ++ w)).head? = some ch → isWord ch = false
  stop : ∀ ch, w.head? = some ch → isBlank ch = false
  /-- No group is left behind. -/
  single : v = none → group? w = none

theorem group?_of_ne {w : Text} (h : w.head? ≠ some '(') : group? w = none := by
  unfold group?
  rw [if_neg]
  intro opens
  obtain ⟨rest, rfl⟩ := List.isPrefixOf_iff_prefix.mp opens
  exact h rfl

theorem group?_group {v : Text} (flat : ∀ ch ∈ v, ch ≠ '(' ∧ ch ≠ ')') (w : Text) :
    group? ('(' :: (v ++ ')' :: w)) = some v := by
  have inside : ∀ ch ∈ v, (ch != '(' && ch != ')') = true := by
    intro ch mem
    simpa using flat ch mem
  have run : (v ++ ')' :: w).takeWhile (fun c => c != '(' && c != ')') = v := by
    apply takeWhile_append_stop inside
    rintro ch ⟨⟩
    rfl
  have opens : Text.startsWith ('(' :: (v ++ ')' :: w)) "(" = true := rfl
  unfold group?
  rw [if_pos opens]
  simp [run]

/-- The run of characters with a property that a text begins with, and what ends it. -/
theorem exists_run (p : Char → Bool) (t : Text) :
    ∃ u w, t = u ++ w ∧ (∀ ch ∈ u, p ch = true) ∧ ∀ ch, w.head? = some ch → p ch = false := by
  refine ⟨t.takeWhile p, t.dropWhile p, List.takeWhile_append_dropWhile.symm,
    List.all_eq_true.mp List.all_takeWhile, ?_⟩
  intro ch first
  have stops := List.head?_dropWhile_not p t
  rw [first] at stops
  simpa using stops

/-- A group is a text in parentheses that holds none. -/
theorem group?_eq_some {t v : Text} (h : group? t = some v) :
    ∃ w, t = '(' :: (v ++ ')' :: w) ∧ ∀ ch ∈ v, ch ≠ '(' ∧ ch ≠ ')' := by
  unfold group? at h
  split at h
  next opens =>
    obtain ⟨rest, rfl⟩ := List.isPrefixOf_iff_prefix.mp opens
    obtain ⟨u, w, rfl, inside, stop⟩ := exists_run (fun c => c != '(' && c != ')') rest
    have tail : (("(" : Text) ++ (u ++ w)).drop 1 = u ++ w := rfl
    have behind : (("(" : Text) ++ (u ++ w)).drop (u.length + 1) = w := by
      show (u ++ w).drop u.length = w
      exact List.drop_left
    simp only [tail, takeWhile_append_stop inside stop, behind] at h
    split at h
    next closes =>
      obtain rfl := Option.some.inj h
      obtain ⟨w', rfl⟩ := List.head?_eq_some_iff.mp closes
      refine ⟨w', rfl, ?_⟩
      intro ch mem
      simpa using inside ch mem
    next => cases h
  next => cases h

/-- **An option is read as it is written**, with the comma behind it if there is one. -/
theorem at?_eq {place : Cursor} {b n g b' w : Text} {v : Option Text} (h : Front place.ahead b n v g b' w) :
    at? place = some (⟨n, v, place.offset + b.length⟩,
      (b ++ (n ++ (g ++ b'))).length + commaLength w) := by
  have toName : Text.blanks place.ahead = b.length := by
    rw [h.eq]
    exact blanks_append h.before h.isName.notBlank
  have atName : place.ahead.drop b.length = n ++ (g ++ (b' ++ w)) := by
    rw [h.eq, List.drop_left]
  have length := Text.nameLength_append h.isName h.apart
  have behindName : place.ahead.drop (b.length + n.length) = g ++ (b' ++ w) := by
    rw [← List.drop_drop, atName, List.drop_left]
  have notEmpty : n.isEmpty = false := List.isEmpty_eq_false_iff.mpr h.isName.ne_nil
  have toComma : Text.blanks (b' ++ w) = b'.length := blanks_append h.behind h.stop
  have atComma : (b' ++ w).drop b'.length = w := List.drop_left
  unfold at?
  simp only [toName, atName, length, List.take_left, behindName, notEmpty, Bool.false_eq_true, if_false]
  rcases h.group with _ | @⟨b'', v, blank, flat⟩
  · -- the blanks behind the name are those in front of the comma
    have single := h.single rfl
    have none : Text.blanks w = 0 := by
      have noBlanks := blanks_append IsGap.nil h.stop
      rwa [List.nil_append] at noBlanks
    have atGroup : place.ahead.drop (b.length + n.length + b'.length) = w := by
      rw [← List.drop_drop, behindName, List.nil_append, atComma]
    simp only [List.nil_append, toComma, atGroup, single, Option.elim_none, Nat.add_zero, none]
    rw [commaLength]
    cases Text.startsWith w "," <;> simp <;> omega
  · have opens : ∀ ch, ('(' :: (v ++ ')' :: (b' ++ w))).head? = some ch → isBlank ch = false := by
      rintro ch ⟨⟩
      rfl
    have cut : b'' ++ '(' :: (v ++ [')']) ++ (b' ++ w) = b'' ++ '(' :: (v ++ ')' :: (b' ++ w)) := by simp
    have toGroup : Text.blanks (b'' ++ '(' :: (v ++ [')']) ++ (b' ++ w)) = b''.length := by
      rw [cut]
      exact blanks_append blank opens
    have atGroup : place.ahead.drop (b.length + n.length + b''.length) = '(' :: (v ++ ')' :: (b' ++ w)) := by
      rw [← List.drop_drop, behindName, cut, List.drop_left]
    have behindGroup : place.ahead.drop (b.length + n.length + b''.length + (v.length + 2)) = b' ++ w := by
      rw [← List.drop_drop, atGroup]
      simp
    have beforeComma : place.ahead.drop (b.length + n.length + b''.length + (v.length + 2) + b'.length) = w := by
      rw [← List.drop_drop, behindGroup, atComma]
    simp only [toGroup, atGroup, group?_group flat, Option.elim_some, behindGroup, toComma, beforeComma]
    rw [commaLength]
    cases Text.startsWith w "," <;> simp <;> omega

/-- A text that begins with a name behind its blanks begins with an option. -/
theorem exists_front (t : Text) :
    (∃ b w, t = b ++ w ∧ IsGap b ∧ ∀ ch, w.head? = some ch → isBlank ch = false ∧ isNameStart ch = false)
      ∨ ∃ b n v g b' w, Front t b n v g b' w := by
  obtain ⟨b, rest, rfl, before, plain⟩ := exists_run isBlank t
  rcases Text.nameLength_cases rest with ⟨_, noName⟩ | ⟨n, rest, rfl, isName, _, apart⟩
  · exact .inl ⟨b, rest, rfl, before, fun ch first => ⟨plain ch first, noName ch first⟩⟩
  · obtain ⟨b', w, rfl, behind, stop⟩ := exists_run isBlank rest
    cases group : group? w with
    | none =>
        exact .inr ⟨b, n, none, [], b', w, rfl, before, isName, .absent, behind, apart, stop, fun _ => group⟩
    | some v =>
        obtain ⟨rest, rfl, flat⟩ := group?_eq_some group
        obtain ⟨b'', w, rfl, behind', stop'⟩ := exists_run isBlank rest
        have eq : b' ++ '(' :: (v ++ ')' :: (b'' ++ w)) = (b' ++ '(' :: (v ++ [')'])) ++ (b'' ++ w) := by simp
        rw [eq] at apart ⊢
        exact .inr ⟨b, n, some v, _, b'', w, rfl, before, isName, .present behind flat, behind', apart, stop', nofun⟩

/-- Where no name begins, no option is read. -/
theorem at?_eq_none {place : Cursor} {b w : Text} (eq : place.ahead = b ++ w) (blank : IsGap b)
    (noName : ∀ ch, w.head? = some ch → isBlank ch = false ∧ isNameStart ch = false) : at? place = none := by
  have toName : Text.blanks place.ahead = b.length := by
    rw [eq]
    exact blanks_append blank fun ch first => (noName ch first).1
  have atName : place.ahead.drop b.length = w := by rw [eq, List.drop_left]
  have none : Text.nameLength w = 0 := Text.nameLength_eq_zero fun ch first => (noName ch first).2
  unfold at?
  simp only [toName, atName, none, List.take_zero]
  rfl

namespace Front

variable {t b n g b' w : Text} {v : Option Text}

theorem ne_blank (h : Front t b n v g b' w) : Text.isBlank t = false := by
  obtain ⟨ch, u, rfl, start, _⟩ := h.isName
  rw [h.eq, Text.isBlank, List.all_eq_false]
  refine ⟨ch, by simp, ?_⟩
  rw [not_isBlank_of_isWord (isWord_of_isNameStart start)]
  decide

/-- What the option writes, and what stands behind it. -/
theorem isWritten (h : Front t b n v g b' w) (i : Nat) :
    IsWritten i ⟨n, v, i + b.length⟩ (b ++ (n ++ (g ++ b'))) ∧ t = b ++ (n ++ (g ++ b')) ++ w :=
  ⟨.mk h.before h.isName h.group h.behind, by rw [h.eq]; simp⟩

end Front

theorem IsGroup.first {v : Option Text} {g : Text} (h : IsGroup v g) :
    ∀ ch, g.head? = some ch → isWord ch = false := by
  cases h with
  | absent => exact nofun
  | present blank flat =>
      refine head?_append_cases (fun ch first => not_isWord_of_isBlank (blank ch (List.mem_of_head? first))) ?_
      rintro ch ⟨⟩
      rfl

/-- An option with neither group nor blanks behind it ends in its name. -/
theorem exists_last_name {b n : Text} (h : IsName n) :
    ∃ ch, (b ++ (n ++ ([] ++ []))).getLast? = some ch ∧ isWord ch = true := by
  refine ⟨n.getLast h.ne_nil, ?_, h.isWord _ (List.getLast_mem h.ne_nil)⟩
  rw [List.append_nil, List.append_nil, List.getLast?_append_of_ne_nil b h.ne_nil,
    List.getLast?_eq_some_getLast h.ne_nil]

/-- A written option in front of a text that does not go on with it. -/
theorem IsWritten.front {i : Nat} {o : WrittenOption} {u w : Text} (h : o.IsWritten i u)
    (stop : ∀ ch, w.head? = some ch → isBlank ch = false ∧ ch ≠ '(')
    (apart : (∀ ch, w.head? = some ch → isWord ch = false) ∨ ∀ ch, u.getLast? = some ch → isWord ch = false) :
    ∃ b n v g b', o = ⟨n, v, i + b.length⟩ ∧ u = b ++ (n ++ (g ++ b')) ∧ Front (u ++ w) b n v g b' w := by
  obtain @⟨b, n, g, b', v, before, isName, group, behind⟩ := h
  refine ⟨b, n, v, g, b', rfl, rfl, by simp, before, isName, group, behind, ?_, fun ch first => (stop ch first).1, ?_⟩
  · have tail : ∀ ch, (g ++ b').head? = some ch → isWord ch = false :=
      head?_append_cases group.first fun ch first => not_isWord_of_isBlank (behind ch (List.mem_of_head? first))
    rw [← List.append_assoc]
    by_cases tight : g ++ b' = []
    · -- only the name itself could go on with what stands behind the option
      rw [tight, List.nil_append]
      rcases apart with apart | apart
      · exact apart
      · obtain ⟨rfl, rfl⟩ := List.append_eq_nil_iff.mp tight
        obtain ⟨ch, last, word⟩ := exists_last_name (b := b) isName
        rw [apart ch last] at word
        cases word
    · intro ch first
      rw [List.head?_append_of_ne_nil _ tight] at first
      exact tail ch first
  · intro _
    exact group?_of_ne fun first => (stop '(' first).2 rfl

/-- Where a name follows, the option does not end in a name. -/
theorem Front.ends {t b n g b' w : Text} {v : Option Text} (h : Front t b n v g b' w)
    (word : ∃ ch, w.head? = some ch ∧ isWord ch = true) :
    ∀ ch, (b ++ (n ++ (g ++ b'))).getLast? = some ch → isWord ch = false := by
  obtain ⟨x, first, isWord⟩ := word
  intro ch last
  rcases List.eq_nil_or_concat b' with rfl | ⟨b', y, rfl⟩
  · rcases h.group with _ | @⟨b'', v, blank, flat⟩
    · have apart := h.apart x first
      rw [isWord] at apart
      cases apart
    · have shape : b ++ (n ++ (b'' ++ '(' :: (v ++ [')']) ++ [])) = b ++ (n ++ (b'' ++ '(' :: v)) ++ [')'] := by
        simp
      rw [shape, List.getLast?_concat] at last
      cases last
      rfl
  · have shape : b ++ (n ++ (g ++ b'.concat y)) = b ++ (n ++ (g ++ b')) ++ [y] := by simp
    have blank := h.behind y (by simp)
    rw [shape, List.getLast?_concat] at last
    cases last
    exact not_isWord_of_isBlank blank

/-! ## §3. Reading a list. -/

/-- An option begins with a blank or with its name. -/
theorem IsWritten.first {i : Nat} {o : WrittenOption} {u : Text} (h : o.IsWritten i u) :
    ∃ ch v, u = ch :: v ∧ (isBlank ch = true ∨ isNameStart ch = true) := by
  obtain @⟨b, n, g, b', v, before, ⟨ch, w, rfl, start, _⟩, group, behind⟩ := h
  cases b with
  | nil => exact ⟨ch, _, rfl, .inr start⟩
  | cons x b => exact ⟨x, _, rfl, .inl (before x List.mem_cons_self)⟩

/-- A list that does not begin with a blank begins with a name. -/
theorem OptionsAt.first {spared : Bool} {i : Nat} {os : List WrittenOption} {ch : Char} {t : Text}
    (h : OptionsAt spared i os (ch :: t)) (plain : isBlank ch = false) : isNameStart ch = true := by
  have begins {o : WrittenOption} {u w : Text} (h : o.IsWritten i u) (eq : ch :: t = u ++ w) :
      isNameStart ch = true := by
    obtain ⟨x, v, rfl, blank | start⟩ := h.first
    · rw [← (List.cons.inj eq).1, plain] at blank
      cases blank
    · rw [(List.cons.inj eq).1]
      exact start
  generalize whole : ch :: t = text at h
  cases h with
  | blank h =>
      rw [← whole] at h
      rw [h ch List.mem_cons_self] at plain
      cases plain
  | last h => exact begins h (whole.trans (List.append_nil _).symm)
  | comma h _ => exact begins h whole
  | juxtaposed _ h _ _ _ => exact begins h whole

theorem OptionsAt.eq_nil {spared : Bool} {i : Nat} {os : List WrittenOption}
    (h : OptionsAt spared i os []) : os = [] := by
  have more {o : WrittenOption} {u w : Text} (h : o.IsWritten i u) (eq : [] = u ++ w) : False := by
    obtain ⟨ch, v, rfl, _⟩ := h.first
    cases eq
  generalize whole : ([] : Text) = text at h
  cases h with
  | blank _ => rfl
  | last h => exact (more h (whole.trans (List.append_nil _).symm)).elim
  | comma h _ => exact (more h whole).elim
  | juxtaposed _ h _ _ _ => exact (more h whole).elim

/-- The options from the cursor on, put behind those that have been read, the last of these first. -/
def readFrom (acc : List WrittenOption) (c : Cursor) : Except Fault (List WrittenOption) :=
  walk readList.step (fun options _ => .ok options.reverse) acc c

variable {c : Cursor} {acc os : List WrittenOption} {o : WrittenOption} {u w : Text}

/-- What stands behind an option and its comma. -/
theorem ahead_behind (eq : c.ahead = u ++ w) :
    (c.advance (u.length + commaLength w)).ahead = w.drop (commaLength w) := by
  rw [← advance_advance, advance_ahead, ahead_advance eq]

/-- The walk ends in blanks. -/
theorem readFrom_blank (blank : IsGap c.ahead) : readFrom acc c = .ok acc.reverse := by
  by_cases atEnd : c.ahead = []
  · exact walk_end atEnd
  · have all : Text.isBlank c.ahead = true := List.all_eq_true.mpr blank
    refine walk_stop atEnd ?_
    unfold readList.step
    rw [if_pos all]

/-- The walk goes on behind an option and the comma that follows it. -/
theorem readFrom_front {b n g b' : Text} {v : Option Text} (h : Front c.ahead b n v g b' w) :
    readFrom acc c = readFrom (⟨n, v, c.offset + b.length⟩ :: acc)
      (c.advance ((b ++ (n ++ (g ++ b'))).length + commaLength w)) := by
  have pos := List.length_pos_of_ne_nil h.isName.ne_nil
  have comma := commaLength_le w
  have whole := congrArg List.length h.eq
  simp only [List.length_append] at whole
  refine walk_move ?_ ?_ ?_
  · unfold readList.step
    rw [if_neg (by rw [h.ne_blank]; decide), at?_eq h]
  · simp only [List.length_append]
    omega
  · simp only [List.length_append]
    omega

/-- A text that begins with neither blanks nor a name is refused. -/
theorem readFrom_noName {b : Text} (eq : c.ahead = b ++ w) (blank : IsGap b) (more : w ≠ [])
    (noName : ∀ ch, w.head? = some ch → isBlank ch = false ∧ isNameStart ch = false) :
    readFrom acc c = c.fail .malformedOptions := by
  obtain ⟨ch, v, rfl⟩ := List.exists_cons_of_ne_nil more
  have notBlank : Text.isBlank c.ahead = false := by
    rw [eq, Text.isBlank, List.all_eq_false]
    refine ⟨ch, by simp, ?_⟩
    rw [(noName ch rfl).1]
    decide
  refine walk_error (by rw [eq]; simp) ?_
  unfold readList.step
  rw [if_neg (by rw [notBlank]; decide), at?_eq_none eq blank noName]
  rfl

/-- **A written option is read**, and the walk goes on behind it. -/
theorem IsWritten.readFrom (h : o.IsWritten c.offset u) (eq : c.ahead = u ++ w)
    (stop : ∀ ch, w.head? = some ch → isBlank ch = false ∧ ch ≠ '(')
    (apart : (∀ ch, w.head? = some ch → isWord ch = false) ∨ ∀ ch, u.getLast? = some ch → isWord ch = false) :
    WrittenOption.readFrom acc c
      = WrittenOption.readFrom (o :: acc) (c.advance (u.length + commaLength w)) := by
  obtain ⟨b, n, v, g, b', rfl, rfl, front⟩ := h.front stop apart
  rw [← eq] at front
  exact readFrom_front front

/-- **A written list is read.** -/
theorem OptionsAt.readFrom {i : Nat} {t : Text} (h : OptionsAt true i os t) (eq : c.ahead = t)
    (offset : c.offset = i) : WrittenOption.readFrom acc c = .ok (acc.reverse ++ os) := by
  have behind (o : WrittenOption) (acc os : List WrittenOption) :
      (o :: acc).reverse ++ os = acc.reverse ++ o :: os := by simp
  induction h generalizing acc c with
  | blank h =>
      rw [← eq] at h
      rw [readFrom_blank h, List.append_nil]
  | @last i o u h =>
      subst offset
      have eq' : c.ahead = u ++ [] := by rw [eq, List.append_nil]
      have atEnd : (c.advance (u.length + 0)).ahead = [] := ahead_advance eq'
      rw [h.readFrom eq' (by simp) (.inl (by simp))]
      show WrittenOption.readFrom (o :: acc) (c.advance (u.length + 0)) = _
      rw [readFrom_blank (by rw [atEnd]; exact IsGap.nil), ← behind, List.append_nil]
  | @comma i o os u t h _ ih =>
      subst offset
      have eq' : c.ahead = (u ++ [',']) ++ t := by rw [eq]; simp
      have ahead : (c.advance (u.length + 1)).ahead = t := by
        rw [← ahead_advance eq', List.length_append, List.length_singleton]
      rw [h.readFrom eq (by simp; decide) (.inl (by simp; decide))]
      show WrittenOption.readFrom (o :: acc) (c.advance (u.length + 1)) = _
      rw [ih ahead (advance_offset _ _), behind]
  | @juxtaposed i o os u t _ h ends begins _ ih =>
      subst offset
      obtain ⟨ch, v, rfl, start⟩ := begins
      have plain : isBlank ch = false := not_isBlank_of_isWord (isWord_of_isNameStart start)
      have other (ch' : Char) (h' : isNameStart ch' = false) : ch ≠ ch' := by
        rintro rfl
        rw [start] at h'
        cases h'
      rw [h.readFrom eq (by simp [plain, other '(' rfl]) (.inr ends), commaLength_of_ne (other ',' rfl),
        Nat.add_zero, ih (ahead_advance eq) (advance_offset _ _), behind]

/-- An option and the list behind it, with a comma between them or without, are a list. -/
theorem OptionsAt.cons {i : Nat} (written : o.IsWritten i u)
    (stop : ∀ ch, w.head? = some ch → isBlank ch = false)
    (ends : (∃ ch, w.head? = some ch ∧ isWord ch = true) → ∀ ch, u.getLast? = some ch → isWord ch = false)
    (rest : OptionsAt true (i + (u.length + commaLength w)) os (w.drop (commaLength w))) :
    OptionsAt true i (o :: os) (u ++ w) := by
  rcases w with _ | ⟨ch, t⟩
  · rw [rest.eq_nil, List.append_nil]
    exact .last written
  · by_cases comma : ch = ','
    · subst comma
      exact .comma written rest
    · rw [commaLength_of_ne comma] at rest
      have start := rest.first (stop ch rfl)
      exact .juxtaposed rfl written (ends ⟨ch, rfl, isWord_of_isNameStart start⟩) ⟨ch, t, rfl, start⟩ rest

/-- **What is read is a written list.** -/
theorem exists_optionsAt {r : List WrittenOption} (h : readFrom acc c = .ok r) :
    ∃ os, r = acc.reverse ++ os ∧ OptionsAt true c.offset os c.ahead := by
  induction length : c.ahead.length using Nat.strongRecOn generalizing acc c with
  | ind k ih =>
      subst length
      rcases exists_front c.ahead with ⟨b, w, eq, blank, noName⟩ | ⟨b, n, v, g, b', w, front⟩
      · -- no option is left
        by_cases more : w = []
        · have all : IsGap c.ahead := by rwa [eq, more, List.append_nil]
          rw [readFrom_blank all] at h
          exact ⟨[], by rw [List.append_nil, Except.ok.inj h], .blank all⟩
        · rw [readFrom_noName eq blank more noName] at h
          cases h
      · obtain ⟨written, eq⟩ := front.isWritten c.offset
        have pos := List.length_pos_of_ne_nil front.isName.ne_nil
        have ahead := ahead_behind eq
        have shorter : (w.drop (commaLength w)).length < c.ahead.length := by
          rw [eq, List.length_drop]
          simp only [List.length_append]
          omega
        rw [readFrom_front front] at h
        rw [← ahead] at shorter
        obtain ⟨os, rfl, rest⟩ := ih _ shorter h rfl
        rw [ahead, advance_offset] at rest
        refine ⟨⟨n, v, c.offset + b.length⟩ :: os, by simp, ?_⟩
        rw [eq]
        exact .cons written front.stop front.ends rest

/-- **A text is read if and only if it is a list in which commas may be missing.** -/
theorem readList_ok_iff : readList c = .ok os ↔ OptionsAt true c.offset os c.ahead := by
  constructor
  · intro h
    obtain ⟨os', rfl, written⟩ := exists_optionsAt h
    exact written
  · intro h
    exact h.readFrom rfl rfl

/-- What is not read is a malformed list. -/
theorem readList_error {fault : Fault} (h : readList c = .error fault) : fault.cause = .malformedOptions := by
  have ends : Ends (fun fault : Fault => fault.cause = .malformedOptions) (fun _ => True) (readList c) := by
    refine walk_ends (I := fun _ => True) (J := fun _ => True) (fun _ _ _ _ _ => trivial) trivial trivial
      (fun acc c _ _ _ => ?_) fun _ _ _ _ => trivial
    unfold readList.step
    split
    · trivial
    · split
      · trivial
      · rfl
  rw [h] at ends
  exact ends

/-- **A list of options is read as it is written**: the texts that are read are the lists in which
commas may be missing, a list with its commas is one of them, and every other text is refused. -/
theorem readList_outcome (c : Cursor) :
    (∀ os, readList c = .ok os ↔ OptionsAt true c.offset os c.ahead)
      ∧ (∀ os, OptionsAt false c.offset os c.ahead → readList c = .ok os)
      ∧ ((∀ os, ¬ OptionsAt true c.offset os c.ahead) →
          ∃ fault, readList c = .error fault ∧ fault.cause.code = .parseError) := by
  refine ⟨fun os => readList_ok_iff, fun os strict => readList_ok_iff.mpr strict.loosen, ?_⟩
  intro noList
  cases result : readList c with
  | ok os => exact absurd (readList_ok_iff.mp result) (noList os)
  | error fault =>
      refine ⟨fault, rfl, ?_⟩
      rw [readList_error result]
      rfl

/-- A list with blanks and a comma behind its last option is read, one with a comma in front is not. -/
theorem trailingComma_outcome :
    let os : List WrittenOption := [⟨"prefix", some " My ", 0⟩, ⟨"no_impl", none, 14⟩]
    let trailing := Text.cursor "prefix( My ), no_impl ," 0
    let leading := Text.cursor ", no_impl" 0
    OptionsAt false 0 os trailing.ahead ∧ readList trailing = .ok os
      ∧ (∀ os, ¬ OptionsAt true 0 os leading.ahead)
      ∧ ∃ fault, readList leading = .error fault ∧ fault.cause.code = .parseError := by
  intro os trailing leading
  have myPrefix : IsWritten 0 ⟨"prefix", some " My ", 0⟩ _ :=
    .mk IsGap.nil ⟨'p', _, rfl, rfl, by decide⟩ (.present IsGap.nil (by decide)) IsGap.nil
  have noImpl : IsWritten 13 ⟨"no_impl", none, 14⟩ _ :=
    .mk IsGap.space ⟨'n', _, rfl, rfl, by decide⟩ .absent IsGap.space
  have written : OptionsAt false 0 os trailing.ahead := .comma myPrefix (.comma noImpl (.blank IsGap.nil))
  have refused (os : List WrittenOption) : ¬ OptionsAt true 0 os leading.ahead := by
    intro list
    have read := ((readList_outcome leading).1 os).mpr list
    have fails : (readList leading).isOk = false := by decide
    rw [read] at fails
    cases fails
  exact ⟨written, (readList_outcome trailing).2.1 os written, refused, (readList_outcome leading).2.2 refused⟩

/-! ## §4. A missing comma. -/

/-- In a list with its commas there is one for every option but the last. -/
theorem OptionsAt.length_le {i : Nat} {t : Text} (h : OptionsAt false i os t) : os.length ≤ t.count ',' + 1 := by
  induction h with
  | blank h => exact Nat.zero_le _
  | last h => exact Nat.le_add_left _ _
  | @comma i o os u t h rest ih =>
      rw [List.length_cons, List.count_append, List.count_cons_self]
      omega
  | juxtaposed loose => cases loose

/-- **A list without its comma is read all the same.** -/
theorem missingComma_read :
    let os : List WrittenOption := [⟨"prefix", some "My", 0⟩, ⟨"no_impl", none, 11⟩]
    let list := Text.cursor "prefix(My) no_impl" 0
    (∀ os, ¬ OptionsAt false 0 os list.ahead) ∧ readList list = .ok os := by
  intro os list
  have read : readList list = .ok os := by decide
  refine ⟨fun os' strict => ?_, read⟩
  have read' : readList list = .ok os' := readList_ok_iff.mpr strict.loosen
  rw [read] at read'
  have two := strict.length_le
  rw [← Except.ok.inj read'] at two
  revert two
  decide

end WrittenOption

end EnumExtract
