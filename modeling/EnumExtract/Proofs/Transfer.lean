/-
  EnumExtract.Proofs.Transfer
  ────────────────────────────────
  What the readers find in a stretch of text they find in every other text
  that agrees with it.

  Main results:
    • `Agree.identifier?`     the same identifier,
    • `Agree.visibility`      the same visibility,
    • `Agree.prelude`         the same attributes, up to their offsets.
-/
import EnumExtract.Proofs.Agree
import EnumExtract.Proofs.Inside
import EnumExtract.Proofs.Paths
import EnumExtract.Schema.Shape

namespace EnumExtract

open Cursor

/-! ## §1. Measures that stop at a character. -/

section Stops

variable {x : Char} (v r r' : Text)

/-- A run stops at a character that is not of its kind, whatever stands behind it. -/
theorem takeWhile_congr {p : Char → Bool} (stop : p x = false) :
    (v ++ x :: r).takeWhile p = (v ++ x :: r').takeWhile p := by
  induction v with
  | nil =>
      show (x :: r).takeWhile p = (x :: r').takeWhile p
      rw [List.takeWhile_cons_of_neg (by simp [stop]), List.takeWhile_cons_of_neg (by simp [stop])]
  | cons c v ih =>
      rw [List.cons_append, List.cons_append, List.takeWhile_cons, List.takeWhile_cons, ih]

theorem length_takeWhile_le {p : Char → Bool} (stop : p x = false) :
    ((v ++ x :: r).takeWhile p).length ≤ v.length := by
  induction v with
  | nil =>
      show ((x :: r).takeWhile p).length ≤ 0
      rw [List.takeWhile_cons_of_neg (by simp [stop])]
      exact Nat.le_refl _
  | cons c v ih =>
      rw [List.cons_append, List.takeWhile_cons]
      split
      · exact Nat.succ_le_succ ih
      · exact Nat.zero_le _

theorem startsWith_stop {word : Text} (absent : x ∉ word) :
    Text.startsWith (v ++ x :: r) word = Text.startsWith v word := by
  induction word generalizing v with
  | nil => rfl
  | cons a word ih =>
      rw [List.mem_cons, not_or] at absent
      cases v with
      | nil =>
          show (a == x && _) = false
          rw [Bool.and_eq_false_iff]
          exact .inl (beq_eq_false_iff_ne.mpr (Ne.symm absent.1))
      | cons b v =>
          show (a == b && Text.startsWith (v ++ x :: r) word) = (a == b && Text.startsWith v word)
          rw [ih v absent.2]

theorem length_le_of_startsWith {t word : Text} (h : Text.startsWith t word = true) :
    word.length ≤ t.length :=
  (List.isPrefixOf_iff_prefix.mp h).length_le

variable (outside : inScope x = false)
include outside

theorem isBlank_of_not_inScope : isBlank x = false := by
  unfold inScope at outside
  rw [Bool.or_eq_false_iff] at outside
  exact outside.2

theorem blanks_congr : Text.blanks (v ++ x :: r) = Text.blanks (v ++ x :: r') := by
  unfold Text.blanks
  rw [takeWhile_congr v r r' (isBlank_of_not_inScope outside)]

theorem blanks_le : Text.blanks (v ++ x :: r) ≤ v.length :=
  length_takeWhile_le v r (isBlank_of_not_inScope outside)

theorem not_mem_of_not_inScope {word : Text} (inside : word.all inScope = true) : x ∉ word := by
  intro mem
  rw [List.all_eq_true.mp inside x mem] at outside
  cases outside

theorem scopeBody?_congr :
    scopeLength?.scopeBody? (v ++ x :: r) = scopeLength?.scopeBody? (v ++ x :: r')
      ∧ ∀ n, scopeLength?.scopeBody? (v ++ x :: r) = some n → n ≤ v.length := by
  have same (r : Text) : (["crate", "self", "super"] : List Text).find? (Text.startsWith (v ++ x :: r))
      = (["crate", "self", "super"] : List Text).find? (Text.startsWith v) := by
    simp only [List.find?]
    rw [startsWith_stop v r (not_mem_of_not_inScope outside (by decide)),
      startsWith_stop v r (not_mem_of_not_inScope outside (by decide)),
      startsWith_stop v r (not_mem_of_not_inScope outside (by decide))]
  unfold scopeLength?.scopeBody?
  rw [same r, same r']
  split
  next word found =>
    refine ⟨rfl, fun n h => ?_⟩
    cases h
    exact length_le_of_startsWith (List.find?_some found)
  next =>
    simp only
    have inside : x ∉ ("in" : Text) := not_mem_of_not_inScope outside (by decide)
    rw [startsWith_stop v r inside, startsWith_stop v r' inside]
    cases starts : Text.startsWith v "in" with
    | false => exact ⟨rfl, nofun⟩
    | true =>
        have two : 2 ≤ v.length := length_le_of_startsWith starts
        have run := takeWhile_congr (p := fun c => isWord c || c == ':' || isBlank c) (v.drop 2) r r'
          outside
        rw [List.drop_append_of_le_length two, List.drop_append_of_le_length two, run]
        refine ⟨rfl, fun n h => ?_⟩
        split at h
        next =>
          cases h
          have le := length_takeWhile_le (v.drop 2) r' outside
          rw [List.length_drop] at le
          show (List.takeWhile inScope (v.drop 2 ++ x :: r')).length + 2 ≤ v.length
          omega
        next => cases h

omit outside in
theorem scopeLength?_paren (t : Text) : scopeLength? ('(' :: t)
    = (scopeLength?.scopeBody? (t.drop (Text.blanks t))).bind fun scope =>
        let stop := Text.blanks t + scope + Text.blanks (t.drop (Text.blanks t + scope))
        if (t.drop stop).head? = some ')' then some (stop + 2) else none :=
  rfl

/-- A scope is measured by what stands before the first character that is in no scope, and that
character. -/
theorem scopeLength?_congr :
    scopeLength? ('(' :: (v ++ x :: r)) = scopeLength? ('(' :: (v ++ x :: r')) := by
  have shift {k : Nat} (le : k ≤ v.length) (r : Text) : (v ++ x :: r).drop k = v.drop k ++ x :: r :=
    List.drop_append_of_le_length le
  have le := blanks_le v r outside
  rw [scopeLength?_paren, scopeLength?_paren, ← blanks_congr v r r' outside]
  generalize Text.blanks (v ++ x :: r) = before at le ⊢
  obtain ⟨same, bound⟩ := scopeBody?_congr (v.drop before) r r' outside
  rw [shift le r, shift le r', ← same]
  cases hbody : scopeLength?.scopeBody? (v.drop before ++ x :: r) with
  | none => rfl
  | some scope =>
      have within := bound scope hbody
      rw [List.length_drop] at within
      have le' := blanks_le (v.drop (before + scope)) r outside
      rw [List.length_drop] at le'
      simp only [Option.bind_some]
      rw [shift (k := before + scope) (by omega) r, shift (k := before + scope) (by omega) r',
        ← blanks_congr (v.drop (before + scope)) r r' outside]
      generalize Text.blanks (v.drop (before + scope) ++ x :: r) = after at le' ⊢
      rw [shift (k := before + scope + after) (by omega) r,
        shift (k := before + scope + after) (by omega) r']
      have first (w : Text) : (w ++ x :: r).head? = (w ++ x :: r').head? := by
        cases w <;> rfl
      rw [first]

end Stops

/-- A scope is the same in two texts that are the same up to a character that is in no scope. -/
theorem scopeLength?_of_take {t t' : Text} {k : Nat} {x : Char} (pos : 0 < k) (found : t[k]? = some x)
    (found' : t'[k]? = some x) (same : t'.take k = t.take k) (outside : inScope x = false) :
    scopeLength? t' = scopeLength? t := by
  have cut {t : Text} (at' : t[k]? = some x) : t = t.take k ++ x :: t.drop (k + 1) := by
    obtain ⟨bound, value⟩ := List.getElem?_eq_some_iff.mp at'
    conv_lhs => rw [← List.take_append_drop k t, List.drop_eq_getElem_cons bound, value]
  rw [cut found, cut found', same]
  cases front : t.take k with
  | nil =>
      rw [List.take_eq_nil_iff] at front
      rcases front with zero | none
      · omega
      · rw [none] at found
        cases found
  | cons a v =>
      by_cases paren : a = '('
      · rw [paren]
        exact scopeLength?_congr v _ _ outside
      · have none (rest : Text) : scopeLength? (a :: rest) = none := by
          unfold scopeLength?
          split
          next eq => exact absurd (List.cons.inj eq).1 paren
          next => rfl
        rw [List.cons_append, List.cons_append, none, none]

/-! ## §2. Identifiers and visibilities. -/

namespace Cursor

variable {e e' : Nat} {o c c' d head : Cursor} {m : Int} {i j : Nat} {p : Piece}

theorem not_isNameStart_of_isFence {f : Char} (h : isFence f = true) : isNameStart f = false := by
  rw [Bool.eq_false_iff]
  intro start
  have word := isWord_of_isNameStart start
  rw [(isFence_ne h).1] at word
  cases word

/-- **The same identifier** stands at both places, if it ends within the stretch. -/
theorem Agree.identifier? {w : Text} {after : Cursor} (h : Agree e e' c c')
    (hw : c.identifier? = some (w, after)) (le : after.offset ≤ e) :
    ∃ after', c'.identifier? = some (w, after') ∧ Agree e e' after after' := by
  obtain ⟨found, rfl⟩ := identifier?_eq_some hw
  obtain ⟨rest, eq, isIdentifier, stop⟩ := Text.identifier?_some found
  rw [advance_offset] at le
  refine ⟨c'.advance w.length, ?_, h.advance le⟩
  obtain ⟨u, s, s', ahead, ahead', len, len', fence⟩ := h.ahead
  -- the identifier is all of the stretch or ends before it does
  obtain ⟨v, rfl⟩ : ∃ v, u = w ++ v := by
    have cut : w = u.take w.length := by
      have same := congrArg (List.take w.length) (eq.symm.trans ahead)
      rwa [List.take_left, List.take_append_of_le_length (by omega)] at same
    exact ⟨u.drop w.length, by conv_lhs => rw [← List.take_append_drop w.length u, ← cut]⟩
  rw [List.append_assoc] at ahead ahead'
  have rest_eq : rest = v ++ s := by
    rw [eq] at ahead
    exact List.append_cancel_left ahead
  have found' : Text.identifier? (w ++ (v ++ s')) = some w := by
    refine Text.identifier?_append isIdentifier (fun ch first => ?_) fun raw z hash => ?_
    · cases v with
      | nil =>
          obtain ⟨tail, eq⟩ := List.head?_eq_some_iff.mp first
          exact (isFence_ne (fence.stop ch tail eq)).1
      | cons x v =>
          cases first
          exact stop _ (by rw [rest_eq]; rfl)
    · cases v with
      | nil => exact absurd rfl (isFence_ne (fence.stop '#' z hash)).2.2.2.1
      | cons x v =>
          obtain ⟨rfl, rfl⟩ := List.cons.inj hash
          have name : Text.nameLength (v ++ s) = 0 := by
            rw [eq, rest_eq, raw] at found
            exact Text.nameLength_of_identifier? found
          refine Text.nameLength_eq_zero fun ch first => ?_
          cases v with
          | nil =>
              obtain ⟨tail, eq⟩ := List.head?_eq_some_iff.mp first
              exact not_isNameStart_of_isFence (fence.stop ch tail eq)
          | cons y v =>
              cases first
              rcases Text.nameLength_cases (ch :: v ++ s) with ⟨_, start⟩ | ⟨n, _, _, isName, long, _⟩
              · exact start ch rfl
              · have := List.length_pos_of_ne_nil isName.ne_nil
                omega
  unfold Cursor.identifier?
  rw [ahead', found']
  rfl

theorem identifier?_of_head? {ch : Char} (first : c.ahead.head? = some ch)
    (plain : isNameStart ch = false) : c.identifier? = none := by
  obtain ⟨rest, eq⟩ := List.head?_eq_some_iff.mp first
  unfold Cursor.identifier?
  rw [eq]
  have length : Text.identifierLength (ch :: rest) = 0 := by
    rw [Text.identifierLength.eq_def]
    split
    next eq =>
      rw [(List.cons.inj eq).1] at plain
      cases plain
    next => exact Text.nameLength_eq_zero fun c h => by cases h; exact plain
  rw [Text.identifier?, if_pos length]
  rfl

theorem isNameStart_of_identifier? {w : Text} {after : Cursor} (h : c.identifier? = some (w, after)) :
    ∃ ch, c.ahead.head? = some ch ∧ isNameStart ch = true := by
  cases first : c.ahead.head? with
  | none =>
      obtain ⟨ch, first', _⟩ := isWord_of_identifier? h
      rw [first] at first'
      cases first'
  | some ch =>
      refine ⟨ch, rfl, ?_⟩
      cases start : isNameStart ch with
      | true => rfl
      | false =>
          rw [identifier?_of_head? first start] at h
          cases h

/-- An identifier stands where a name may start. -/
theorem identifier?_ne_none {ch : Char} (first : c.ahead.head? = some ch)
    (start : isNameStart ch = true) : c.identifier? ≠ none := by
  obtain ⟨rest, eq⟩ := List.head?_eq_some_iff.mp first
  have some : Text.identifier? c.ahead ≠ none := by
    rw [eq, Text.identifier?]
    have pos : Text.identifierLength (ch :: rest) ≠ 0 := by
      rw [Text.identifierLength.eq_def]
      split
      next => split <;> omega
      next =>
        show (if isNameStart ch then _ else _) ≠ 0
        rw [if_pos start]
        omega
    rw [if_neg pos]
    exact Option.some_ne_none _
  unfold Cursor.identifier?
  rw [ne_eq, Option.map_eq_none_iff]
  exact some

/-- Where no identifier starts in the first text, none does in the second. -/
theorem Agree.identifier?_none (h : Agree e e' c c') (lt : c.offset < e)
    (hc : c.identifier? = none) : c'.identifier? = none := by
  cases hc' : c'.identifier? with
  | none => rfl
  | some found =>
      obtain ⟨w, after⟩ := found
      obtain ⟨ch, first, start⟩ := isNameStart_of_identifier? hc'
      rw [h.head? lt] at first
      exact absurd hc (identifier?_ne_none first start)

/-- A scope is the same in both texts, if a character that is in no scope stands within the
stretch. -/
theorem Agree.scopeLength? (h : Agree e e' c c') {k : Nat} {x : Char} (pos : 0 < k)
    (found : c.ahead[k]? = some x) (outside : inScope x = false) (lt : c.offset + k < e) :
    EnumExtract.scopeLength? c'.ahead = EnumExtract.scopeLength? c.ahead :=
  scopeLength?_of_take pos found ((h.getElem? lt).trans found) (h.take (by omega)) outside

/-- A visibility inside a piece is the same in both texts. -/
theorem Agree.visibility {v : Text} (h : Agree e e' c c') (sound : p.Sound o m i j)
    (level : Level o c m) (hv : Visibility c v d) (le : c.offset ≤ p.stop) (inside : p.stop < e) :
    ∃ d', Visibility c' v d' ∧ Agree e e' d d' := by
  have along {after scope : Cursor} (pub : c.identifier? = some (("pub" : Text), after))
      (toScope : Trivia false after scope) :
      ∃ after' scope', c'.identifier? = some (("pub" : Text), after') ∧ Agree e e' after after'
        ∧ Trivia false after' scope' ∧ Agree e e' scope scope'
        ∧ EnumExtract.scopeLength? scope'.ahead = EnumExtract.scopeLength? scope.ahead := by
    have behind := sound.identifier_le level.leadsTo pub le
    have levelAfter := level.identifier pub (pub_plain pub)
    have scopeLe := sound.trivia_le levelAfter toScope behind
    have levelScope := (toScope.spec levelAfter.near).1
    obtain ⟨after', pub', agree⟩ := h.identifier? pub (by omega)
    obtain ⟨scope', agreeScope, toScope'⟩ := agree.trivia toScope (by omega)
    refine ⟨after', scope', pub', agree, toScope', agreeScope, ?_⟩
    obtain ⟨x, ch, stop, hx, ends⟩ := sound.ended
    have outside : inScope ch = false := by
      unfold inScope
      rcases ends with rfl | closes
      · rfl
      · rw [isBracket_not_blank (.inr closes), Bool.or_false, Bool.or_eq_false_iff]
        constructor
        · cases word : isWord ch with
          | false => rfl
          | true =>
              have weight := bracketWeight_of_isWord (.inl word)
              rw [bracketWeight, closer?_of_isCloser closes, closes] at weight
              cases weight
        · cases colon : ch == ':' with
          | false => rfl
          | true =>
              rw [beq_iff_eq.mp colon] at closes
              cases closes
    have there := (levelScope.leadsTo.of_le hx.level.leadsTo (by omega)).eq_advance
    by_cases atStop : scope.offset = p.stop
    · -- nothing is a scope that begins with the end of a piece
      have here : scope = x := levelScope.eq_of_offset hx.level (by omega)
      have first := hx.first
      rw [← here] at first
      have first' := agreeScope.head? (by omega)
      rw [first] at first'
      have none {t : Text} (first : t.head? = some ch) : EnumExtract.scopeLength? t = none := by
        obtain ⟨rest, rfl⟩ := List.head?_eq_some_iff.mp first
        unfold EnumExtract.scopeLength?
        split
        next eq =>
          rw [(List.cons.inj eq).1] at ends
          rcases ends with same | closes
          · cases same
          · cases closes
        next => rfl
      rw [none first, none first']
    · refine agreeScope.scopeLength? (k := p.stop - scope.offset) (by omega) ?_ outside (by omega)
      have first := hx.first
      rw [there, advance_ahead, List.head?_drop, stop] at first
      exact first
  cases hv with
  | none other =>
      refine ⟨c', .none fun after' pub' => ?_, h⟩
      cases hc : c.identifier? with
      | none =>
          rw [h.identifier?_none (by omega) hc] at pub'
          cases pub'
      | some found =>
          obtain ⟨w, after⟩ := found
          have behind := sound.identifier_le level.leadsTo hc le
          obtain ⟨after'', same, _⟩ := h.identifier? hc (by omega)
          rw [pub'] at same
          cases same
          exact other after hc
  | bare pub toScope noScope =>
      obtain ⟨after', scope', pub', agree, toScope', _, same⟩ := along pub toScope
      exact ⟨after', .bare pub' toScope' (by rw [same]; exact noScope), agree⟩
  | @within after scope n pub toScope found =>
      obtain ⟨after', scope', pub', _, toScope', agree, same⟩ := along pub toScope
      have bound := sound.visibility_le level (.within pub toScope found) le
      rw [advance_offset] at bound
      have written := agree.take (k := n) (by omega)
      refine ⟨scope'.advance n, ?_, agree.advance (by omega)⟩
      rw [← written]
      exact .within pub' toScope' (by rw [same]; exact found)

end Cursor

/-! ## §3. Attributes and preludes. -/

/-- The attributes differ in their offsets only.  What they are applied to is a stretch of its
own, up to the closer of its parentheses. -/
structure Attribute.Twin (e e' : Nat) (c c' : Cursor) (a a' : Attribute) : Prop where
  path : a'.path = a.path
  text : a'.text = a.text
  start : a'.start + e = a.start + e'
  length : a'.stop - a'.start = a.stop - a.start
  args : (a.args = none ∧ a'.args = none)
    ∨ ∃ x x' stop, c.LeadsTo x ∧ c'.LeadsTo x' ∧ Agree e e' x x'
      ∧ (Piece.mk x stop).Sound x 0 x.offset stop ∧ stop < e
      ∧ a.args = some ⟨x.upTo stop, x.offset⟩ ∧ a'.args = some ⟨x.upTo stop, x'.offset⟩

namespace Cursor

variable {e e' : Nat} {c c' d d' head : Cursor} {a a' : Attribute} {attrs : List Attribute}

theorem twin_of_leadsTo (h : a.Twin e e' d d' a') (onward : c.LeadsTo d)
    (onward' : c'.LeadsTo d') : a.Twin e e' c c' a' := by
  refine ⟨h.path, h.text, h.start, h.length, ?_⟩
  rcases h.args with none | ⟨x, x', stop, lead, lead', agree, sound, lt, eq, eq'⟩
  · exact .inl none
  · exact .inr ⟨x, x', stop, onward.trans lead, onward'.trans lead', agree, sound, lt, eq, eq'⟩

/-- What a bracket encloses is a piece that ends at its closer. -/
theorem Encloses.sound {code : List (Cursor × Char)} (h : Encloses c code d) :
    (Piece.mk (c.advance 1) d.offset).Sound (c.advance 1) 0 (c.advance 1).offset d.offset := by
  obtain ⟨opener, closer, first, pair, last⟩ := h.closes
  have flat := length_of_nest h.nests
  have there : Level (c.advance 1) d 0 := by
    have level := (Level.start (c.advance 1)).reads h.reads
    rw [Int.zero_add] at level
    rwa [show EnumExtract.level (chars code) = 0 from by simpa using flat.symm] at level
  have closes := (isCloser_of_closer? pair).1
  exact ⟨.start _, Nat.le_refl _, h.reads.offset_le, Nat.le_refl _, d, closer, rfl,
    there.bracket last (.inr closes), .inr closes⟩

/-- **The same attribute** is read at both places, if it ends within the stretch. -/
theorem Agree.attribute (h : Agree e e' c c') (ha : c.readAttribute = .ok a) (le : a.stop ≤ e) :
    ∃ a', c'.readAttribute = .ok a' ∧ a.Twin e e' c c' a' := by
  obtain ⟨close, head, next, parts⟩ := readAttribute_ok_iff.mp ha
  obtain ⟨before, nextLe, argsLt⟩ := parts.spec
  have stop := parts.stop
  have start := parts.start
  obtain ⟨code, encloses⟩ := closing_ok_iff.mp parts.closing
  have forward := encloses.lt
  rw [advance_offset] at forward
  obtain ⟨close', closing', agreeClose⟩ :=
    (h.advance (k := 1) (by omega)).closing parts.closing (by omega)
  obtain ⟨head', agreeHead, toPath'⟩ :=
    (h.advance (k := 2) (by omega)).trivia parts.toPath (by omega)
  have samePath : head'.upTo close'.offset = head.upTo close.offset :=
    agreeHead.upTo (by omega) agreeClose.place
  have bound := (pathLength_spec (head.upTo close.offset)).1
  rw [Cursor.upTo, List.length_take] at bound
  rw [← Cursor.upTo] at bound
  obtain ⟨next', agreeNext, toArgs'⟩ :=
    (agreeHead.advance (k := Text.pathLength (head.upTo close.offset)) (by omega)).trivia
      parts.toArgs (by omega)
  have place := agreeNext.place
  have placeClose := agreeClose.place
  have placeHere := h.place
  have named := agreeHead.take (k := Text.pathLength (head.upTo close.offset)) (by omega)
  have written : c'.upTo (close'.offset + 1) = c.upTo (close.offset + 1) :=
    h.upTo (by omega) (by omega)
  have path := parts.path
  rw [← samePath] at toArgs'
  rw [← named, ← samePath] at path
  rcases parts.args with ⟨⟨inside, sees⟩, argsClose, hargs, eq⟩ | ⟨noArgs, eq⟩
  · have argsClose_lt := argsLt sees argsClose hargs inside
    obtain ⟨argsClose', hargs', agreeArgs⟩ := agreeNext.closing hargs (by omega)
    obtain ⟨inner, enclosed⟩ := closing_ok_iff.mp hargs
    have placeArgs := agreeArgs.place
    have forwardArgs := enclosed.lt
    have agreeInner := agreeNext.advance (k := 1) (by omega)
    have same : (next'.advance 1).upTo argsClose'.offset = (next.advance 1).upTo argsClose.offset :=
      agreeInner.upTo (by omega) (by omega)
    have sees' : next'.sees "(" = true := by
      rw [agreeNext.sees (by show next.offset + 1 ≤ e; omega)]
      exact sees
    refine ⟨⟨a.path, a.text, c'.offset, close'.offset + 1,
      some ⟨(next.advance 1).upTo argsClose.offset, next'.offset + 1⟩⟩, ?_, ?_⟩
    · refine readAttribute_ok_iff.mpr ⟨close', head', next', closing', ?_, ?_, toArgs', path, ?_, rfl,
        rfl, .inl ⟨⟨by omega, sees'⟩, argsClose', hargs', by rw [same]⟩⟩
      · exact toPath'
      · rw [samePath]
        exact parts.named
      · rw [written]
        exact parts.text
    · refine ⟨rfl, rfl, by rw [start]; exact placeHere, by show close'.offset + 1 - c'.offset = _; omega,
        .inr ⟨next.advance 1,
        next'.advance 1, argsClose.offset, ?_, ?_, agreeInner, enclosed.sound, by omega, eq, rfl⟩⟩
      · refine LeadsTo.trans ?_ (leadsTo_first (first_of_sees sees))
        have long := h.length_le
        exact (leadsTo_advance (c := c) (k := 2) (by omega)).trans parts.leadsTo_next
      · refine LeadsTo.trans ?_ (leadsTo_first (first_of_sees sees'))
        refine LeadsTo.trans ?_ toArgs'.leadsTo
        refine LeadsTo.trans ((h.leadsTo (k := 2) (by omega)).trans toPath'.leadsTo) ?_
        rw [samePath]
        exact agreeHead.leadsTo (by omega)
  · refine ⟨⟨a.path, a.text, c'.offset, close'.offset + 1, none⟩, ?_, ?_⟩
    · refine readAttribute_ok_iff.mpr ⟨close', head', next', closing', toPath', ?_, toArgs', path, ?_,
        rfl, rfl, .inr ⟨?_, rfl⟩⟩
      · rw [samePath]
        exact parts.named
      · rw [written]
        exact parts.text
      · rintro ⟨inside, sees⟩
        refine noArgs ⟨by omega, ?_⟩
        rwa [agreeNext.sees (by show next.offset + 1 ≤ e; omega)] at sees
    · exact ⟨rfl, rfl, by rw [start]; exact placeHere, by show close'.offset + 1 - c'.offset = _; omega,
        .inl ⟨eq, rfl⟩⟩

/-- A doc comment that begins a prelude ends before what the prelude leads to. -/
theorem DocAt.le_head {n : Nat} (doc : DocAt c a) (hl : c.lexeme? = .ok (some n))
    (hp : Prelude c (a :: attrs) head) : c.offset + n ≤ head.offset := by
  have level := (hp.laid (Level.start c).near).level
  obtain ⟨code, reads, _⟩ := (Level.start c).reads_to level hp.leadsTo.offset_le
  cases reads with
  | here =>
      have noDoc := hp.ends.2.1
      rw [doc.starts] at noDoc
      cases noDoc
  | lexeme hl' rest =>
      rw [hl] at hl'
      cases hl'
      exact rest.offset_le
  | char hl' _ _ =>
      rw [hl] at hl'
      cases hl'

theorem Agree.doc {n : Nat} (h : Agree e e' c c') (doc : DocAt c a)
    (hl : c.lexeme? = .ok (some n)) (le : c.offset + n ≤ e) :
    ∃ a', DocAt c' a' ∧ c'.trivium? true = .ok none ∧ a.Twin e e' c c' a' := by
  obtain ⟨n', hl', eq⟩ := doc.exists_lexeme
  rw [hl] at hl'
  cases hl'
  have comment : c.comment? = .ok (some n) := by
    rcases lexeme?_some_iff.mp hl with comment | ⟨none, _⟩
    · exact comment
    · exact absurd none (comment?_of_startsDocComment doc.starts)
  have starts : startsDocComment c'.ahead = true := by
    rw [h.startsDocComment_eq comment le]
    exact doc.starts
  have written := h.take le
  have read : c'.readDocComment = .ok ⟨"doc", Text.trimEnd (c.ahead.take n), c'.offset,
      c'.offset + (Text.trimEnd (c.ahead.take n)).length, none⟩ := by
    refine bind_ok_iff.mpr ⟨some n, h.lexeme?_some hl le, ?_⟩
    show Except.ok _ = Except.ok _
    rw [Option.getD_some, written]
  refine ⟨_, ⟨starts, read⟩, trivium?_of_doc starts, ?_⟩
  rw [eq]
  exact ⟨rfl, rfl, h.place, by simp only; omega, .inl ⟨rfl, rfl⟩⟩

theorem Agree.sees_attribute (h : Agree e e' c c') (lt : c.offset < e)
    (hc : c.sees "#[" = false) : c'.sees "#[" = false := by
  rw [Bool.eq_false_iff]
  intro sees
  obtain ⟨rest, eq⟩ := sees_iff.mp sees
  obtain ⟨u, s, s', ahead, ahead', len, len', fence⟩ := h.ahead
  rw [ahead'] at eq
  match u with
  | [] =>
      rw [List.length_nil] at len
      omega
  | [x] =>
      have isFence := fence.stop '[' rest (List.cons.inj eq).2
      exact (isFence_ne isFence).2.2.2.2.2.2.2.2 rfl
  | x :: y :: u =>
      have here : c.sees "#[" = true := by
        refine sees_iff.mpr ⟨u ++ s, ?_⟩
        rw [ahead, (List.cons.inj eq).1, (List.cons.inj (List.cons.inj eq).2).1]
        rfl
      rw [hc] at here
      cases here

/-- **The same prelude** stands at both places, if what follows it begins within the stretch. -/
theorem Agree.prelude (h : Agree e e' c c') (hp : Prelude c attrs head) (lt : head.offset < e) :
    ∃ attrs' head', Prelude c' attrs' head' ∧ Agree e e' head head'
      ∧ List.Forall₂ (Attribute.Twin e e' c c') attrs attrs' := by
  induction hp generalizing c' with
  | @stop c ht noDoc noAttribute =>
      have comment : c.comment? = .ok none := by
        rcases (Cursor.trivium?_none ht).2 with doc | comment
        · rw [noDoc] at doc
          cases doc
        · exact comment
      have noDoc' : startsDocComment c'.ahead = false := by
        rw [Bool.eq_false_iff]
        intro doc
        exact comment?_of_startsDocComment doc (h.comment?_none lt comment)
      exact ⟨[], c', .stop (h.trivium?_none lt ht (by rw [noDoc]; rfl)) noDoc'
        (h.sees_attribute lt noAttribute), h, .nil⟩
  | @trivia c head attrs n ht rest ih =>
      have forward := rest.leadsTo.offset_le
      rw [advance_offset] at forward
      obtain ⟨attrs', head', hp', agree, all⟩ := ih (h.advance (by omega)) lt
      refine ⟨attrs', head', .trivia (h.trivium?_some ht (by omega)) hp', agree, ?_⟩
      exact all.imp fun a a' twin => twin_of_leadsTo twin (leadsTo_advance (trivium?_bounds ht).2)
        (h.leadsTo (by omega))
  | @doc c head a attrs ht doc rest ih =>
      obtain ⟨n, hl, eq⟩ := doc.exists_lexeme
      have within := doc.le_head hl (.doc ht doc rest)
      have bounds := doc.bounds
      have forward := rest.leadsTo.offset_le
      rw [advance_offset] at forward
      obtain ⟨a', doc', ht', twin⟩ := h.doc doc hl (by omega)
      obtain ⟨attrs', head', hp', agree, all⟩ := ih (h.advance (by omega)) lt
      rw [← twin.length] at hp'
      refine ⟨a' :: attrs', head', .doc ht' doc' hp', agree, .cons twin ?_⟩
      exact all.imp fun b b' twin' => twin_of_leadsTo twin' (leadsTo_advance bounds.2)
        (h.leadsTo (by omega))
  | @bracketed c head a attrs ht noDoc sees read rest ih =>
      have bounds := readAttribute_bounds sees read
      have forward := rest.leadsTo.offset_le
      rw [advance_offset] at forward
      obtain ⟨close, inner, next, parts⟩ := readAttribute_ok_iff.mp read
      have start := parts.start
      obtain ⟨a', read', twin⟩ := h.attribute read (by omega)
      obtain ⟨attrs', head', hp', agree, all⟩ := ih (h.advance (by omega)) lt
      rw [← twin.length] at hp'
      have two : 2 ≤ a.stop - a.start := by
        have here : Bracketed c c 0 a := ⟨(Level.start c).hash sees, sees, read⟩
        have := here.lt
        omega
      have sees' : c'.sees "#[" = true := by
        rw [h.sees (by show c.offset + 2 ≤ e; omega)]
        exact sees
      have noDoc' : startsDocComment c'.ahead = false := by
        obtain ⟨tail, eq⟩ := sees_iff.mp sees'
        rw [eq]
        rfl
      refine ⟨a' :: attrs', head',
        .bracketed (h.trivium?_none (by omega) ht (by rw [noDoc]; rfl)) noDoc' sees' read' hp', agree,
        .cons twin ?_⟩
      exact all.imp fun b b' twin' => twin_of_leadsTo twin' (leadsTo_advance bounds.2)
        (h.leadsTo (by omega))

end Cursor

end EnumExtract
