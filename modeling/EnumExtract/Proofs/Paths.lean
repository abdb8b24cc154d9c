/-
  EnumExtract.Proofs.Paths
  ────────────────────────────────
  The path of an attribute and what it is applied to, inside its brackets.

  Main results:
    • `pathLength_spec`        a path is made of words, colons and blanks,
    • `AttributeParts.spec`    path and argument list end before the bracket closes.
-/
import EnumExtract.Proofs.Names
import EnumExtract.Proofs.Prelude

namespace EnumExtract

open Cursor

/-! ## §1. Paths. -/

/-- All characters of the first `n` may stand in a path. -/
def PathText (t : Text) (n : Nat) : Prop :=
  n ≤ t.length ∧ ∀ ch ∈ t.take n, inScope ch = true

theorem PathText.cons {c : Char} {t : Text} {n : Nat} (hc : inScope c = true) (h : PathText t n) :
    PathText (c :: t) (n + 1) := by
  obtain ⟨le, all⟩ := h
  refine ⟨Nat.succ_le_succ le, fun ch mem => ?_⟩
  rw [List.take_succ_cons] at mem
  rcases List.mem_cons.mp mem with rfl | mem
  · exact hc
  · exact all ch mem

/-- Pieces that each are path text are so together. -/
theorem runLength_go_spec {piece? : Text → Option Nat}
    (spec : ∀ t n, piece? t = some n → PathText t n) (t : Text) : ∀ claimed, PathText t claimed →
      PathText t (runLength.go piece? claimed t) := by
  induction t with
  | nil =>
      intro claimed _
      exact ⟨Nat.le_refl _, nofun⟩
  | cons c rest ih =>
      have step (k : Nat) (h : PathText (c :: rest) (k + 1)) :
          PathText (c :: rest) (runLength.go piece? k rest + 1) := by
        obtain ⟨le, all⟩ := h
        rw [List.take_succ_cons] at all
        exact .cons (all c List.mem_cons_self)
          (ih k ⟨Nat.le_of_succ_le_succ le, fun ch mem => all ch (List.mem_cons_of_mem c mem)⟩)
      intro claimed h
      cases claimed with
      | succ k => exact step k h
      | zero =>
          unfold runLength.go
          simp only
          split
          next k found => exact step k (spec _ _ found)
          next => exact ⟨Nat.zero_le _, nofun⟩

theorem inScope_of_isWord {ch : Char} (h : isWord ch = true) : inScope ch = true := by
  unfold inScope
  rw [h, Bool.true_or, Bool.true_or]

theorem segmentLength?_spec {t : Text} {n : Nat} (h : Text.segmentLength? t = some n) :
    PathText t n := by
  unfold Text.segmentLength? at h
  simp only at h
  split at h
  next colons =>
    split at h
    next => cases h
    next found =>
      cases h
      obtain ⟨u, rest, eq, len, blank⟩ := exists_blanks_append t
      rw [← len, eq, List.drop_left] at colons found ⊢
      obtain ⟨after, rfl⟩ := List.isPrefixOf_iff_prefix.mp colons
      have tail : ("::".toList ++ after).drop 2 = after := rfl
      rw [tail] at found ⊢
      obtain ⟨u', rest', eq', len', blank'⟩ := exists_blanks_append after
      rw [← len', eq'] at found ⊢
      have skip : ((u ++ ("::".toList ++ (u' ++ rest'))).drop u.length) = "::".toList ++ (u' ++ rest') :=
        List.drop_left
      have name : ("::".toList ++ (u' ++ rest')).drop (2 + u'.length) = rest' := by
        rw [← List.drop_drop]
        exact List.drop_left
      rw [name] at found ⊢
      rcases Text.nameLength_cases rest' with ⟨none, _⟩ | ⟨w, rest, rfl, isName, long, _⟩
      · exact absurd none found
      · have cut : u ++ ("::".toList ++ (u' ++ (w ++ rest)))
            = (u ++ "::".toList ++ u' ++ w) ++ rest := by simp
        have size : (u ++ "::".toList ++ u' ++ w).length
            = u.length + 2 + u'.length + Text.nameLength (w ++ rest) := by
          rw [List.length_append, List.length_append, List.length_append, long]
          rfl
        unfold PathText
        rw [← size, cut, List.take_left]
        refine ⟨?_, fun ch mem => ?_⟩
        · exact (List.prefix_append _ rest).length_le
        · rw [List.mem_append, List.mem_append, List.mem_append] at mem
          rcases mem with ((mem | mem) | mem) | mem
          · exact inScope_of_isBlank (blank ch mem)
          · have colon : ch = ':' := by simpa using mem
            rw [colon]
            rfl
          · exact inScope_of_isBlank (blank' ch mem)
          · exact inScope_of_isWord (isName.isWord ch mem)
  next => cases h

/-- **A path is made of words, colons and blanks.** -/
theorem pathLength_spec (t : Text) : PathText t (Text.pathLength t) := by
  unfold Text.pathLength
  rcases Text.nameLength_cases t with ⟨none, _⟩ | ⟨w, rest, rfl, isName, long, _⟩
  · rw [if_pos none]
    exact ⟨Nat.zero_le _, nofun⟩
  · have pos := List.length_pos_of_ne_nil isName.ne_nil
    rw [if_neg (by omega), ← long, List.drop_left]
    obtain ⟨le, all⟩ := runLength_go_spec (fun _ _ => segmentLength?_spec) rest 0
      ⟨Nat.zero_le _, nofun⟩
    refine ⟨?_, fun ch mem => ?_⟩
    · rw [List.length_append]
      exact Nat.add_le_add_left le _
    · rw [List.take_length_add_append, List.mem_append] at mem
      rcases mem with mem | mem
      · exact inScope_of_isWord (isName.isWord ch mem)
      · exact all ch mem

/-! ## §2. Inside the brackets of an attribute. -/

namespace Cursor

variable {p close head next : Cursor} {a : Attribute}

/-- The place behind the path is read to, where it goes on with neither hash nor quotation mark. -/
theorem Level.path {o : Cursor} {m : Int} {stop : Char} {rest : Text} {i : Nat}
    (level : Level o head m) (le : head.offset ≤ i)
    (ahead : (head.advance (Text.pathLength (head.upTo i))).ahead = stop :: rest)
    (outside : stop ≠ '#' ∧ stop ≠ '"' ∧ stop ≠ 'r' ∧ stop ≠ 'b') :
    Level o (head.advance (Text.pathLength (head.upTo i))) m := by
  obtain ⟨bound, inside⟩ := pathLength_spec (head.upTo i)
  generalize Text.pathLength (head.upTo i) = n at ahead bound inside ⊢
  unfold Cursor.upTo at bound inside
  rw [List.length_take] at bound
  rw [List.take_take, Nat.min_eq_left (by omega)] at inside
  have eq : head.ahead = head.ahead.take n ++ stop :: rest := by
    rw [← ahead, advance_ahead, List.take_append_drop]
  have length : (head.ahead.take n).length = n := by
    rw [List.length_take]
    omega
  obtain ⟨code, reads, hchars⟩ := reads_inScope eq inside outside
  rw [length] at reads
  have there := level.reads reads
  have flat : EnumExtract.level (chars code) = 0 := by
    rw [hchars]
    exact level_eq_zero fun ch mem => bracketWeight_of_inScope (inside ch mem)
  rwa [flat, Int.add_zero] at there

/-- What follows the path is ahead of the opening bracket. -/
theorem AttributeParts.leadsTo_next (h : AttributeParts p a close head next) :
    (p.advance 2).LeadsTo next := by
  have path : Text.pathLength (head.upTo close.offset) ≤ head.ahead.length :=
    Nat.le_trans (pathLength_spec _).1 (List.take_prefix _ _).length_le
  exact (h.toPath.leadsTo.trans (leadsTo_advance path)).trans h.toArgs.leadsTo

/-- **Path and argument list of an attribute end before its bracket closes.** -/
theorem AttributeParts.spec (h : AttributeParts p a close head next) :
    head.offset < close.offset ∧ next.offset ≤ close.offset
      ∧ (next.sees "(" = true → ∀ argsClose, next.closing = .ok argsClose →
          next.offset < close.offset → argsClose.offset < close.offset) := by
  obtain ⟨code, encloses⟩ := closing_ok_iff.mp h.closing
  obtain ⟨opener, closer, first, pair, last⟩ := encloses.closes
  have start : Level (p.advance 1) (p.advance 1) 0 := .start _
  have inner : Level (p.advance 1) (p.advance 2) 1 := by
    have opens := (start.bracket first (.inl (by rw [pair]; rfl))).next
    rw [bracketWeight, if_pos (by rw [pair]; rfl), advance_advance] at opens
    exact opens
  have outer : Level (p.advance 1) close 1 := encloses.level_closer start
  have closes := outer.bracket last (.inr (isCloser_of_closer? pair).1)
  have plain : isBlank closer = false := isBracket_not_blank (.inr (isCloser_of_closer? pair).1)
  obtain ⟨levelHead, _⟩ := h.toPath.spec inner.near
  have before : head.offset < close.offset := by
    rcases Nat.lt_or_ge head.offset close.offset with lt | ge
    · exact lt
    · refine absurd ?_ h.named
      rw [Cursor.upTo, Nat.sub_eq_zero_of_le ge, List.take_zero]
      rfl
  have bound : head.offset + Text.pathLength (head.upTo close.offset) ≤ close.offset := by
    have le := (pathLength_spec (head.upTo close.offset)).1
    rw [Cursor.upTo, List.length_take] at le
    rw [Cursor.upTo]
    omega
  have toArgs := h.toArgs
  generalize hy : head.advance (Text.pathLength (head.upTo close.offset)) = y at toArgs
  have behind : y.offset ≤ close.offset := by
    rw [← hy, advance_offset]
    exact bound
  have levelAt {stop : Char} {rest : Text} (ahead : y.ahead = stop :: rest)
      (outside : stop ≠ '#' ∧ stop ≠ '"' ∧ stop ≠ 'r' ∧ stop ≠ 'b') : Level (p.advance 1) y 1 := by
    rw [← hy] at ahead ⊢
    exact levelHead.path (Nat.le_of_lt before) ahead outside
  have within (level : Level (p.advance 1) y 1) :
      Level (p.advance 1) next 1 ∧ next.offset ≤ close.offset := by
    obtain ⟨levelNext, blank⟩ := toArgs.spec level.near
    refine ⟨levelNext, ?_⟩
    rcases Nat.lt_or_ge close.offset next.offset with past | ok
    · have isBlank : isBlank closer = true := blank closes behind past
      rw [plain] at isBlank
      cases isBlank
    · exact ok
  cases ht : y.trivium? false with
  | error fault =>
      cases toArgs with
      | stop h => rw [ht] at h; cases h
      | pass h _ => rw [ht] at h; cases h
  | ok length? =>
      have spec : next.offset ≤ close.offset ∧ (next.sees "(" = true → Level (p.advance 1) next 1) := by
        cases length? with
        | none =>
            obtain rfl := toArgs.eq_of_stop ht
            refine ⟨behind, fun sees => ?_⟩
            obtain ⟨rest, eq⟩ := sees_iff.mp sees
            exact levelAt eq (by decide)
        | some n =>
            obtain ⟨ch, first, spec⟩ := trivium?_some ht
            obtain ⟨rest, eq⟩ := List.head?_eq_some_iff.mp first
            have level : Level (p.advance 1) y 1 := by
              rcases spec with ⟨blank, _⟩ | ⟨_, _, comment⟩
              · refine levelAt eq ⟨?_, ?_, ?_, ?_⟩ <;> intro same <;> subst same <;> cases blank
              · have slash : ch = '/' := by
                  rcases comment?_some comment with ⟨_, here, _⟩ | ⟨_, here, _⟩ <;>
                  · rw [here] at eq
                    exact (List.cons.inj eq).1.symm
                rw [slash] at eq
                exact levelAt eq (by decide)
            exact ⟨(within level).2, fun _ => (within level).1⟩
      refine ⟨before, spec.1, fun sees argsClose hclose lt => ?_⟩
      obtain ⟨args, enclosed⟩ := closing_ok_iff.mp hclose
      rcases Nat.lt_or_ge argsClose.offset close.offset with inside | past
      · exact inside
      · have deeper := enclosed.deeper (spec.2 sees) outer lt past
        omega

end Cursor

end EnumExtract
