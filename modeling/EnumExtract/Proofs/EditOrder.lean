/-
  EnumExtract.Proofs.EditOrder
  ────────────────────────────────
  Edits made in one pass, and edits made one after the other.

  An edit moves everything that stands behind it and nothing that stands in
  front of it.  So edits are made one after the other from the last to the
  first, each at the offsets that it has in the text as it was:

      t            ──[a]────[b]──
      b is made    ──[a]────β──
      a is made    ──α────β──

  An insertion may stand at either edge of a stretch that is replaced; the
  order of the edits puts it in front of what starts there and behind what
  stops there.  The order says nothing about two insertions at one offset, and these
  are the only edits that lie apart although they have the same edges.

  Main results:
    • `sorted_eq_of_inOrder`    edits with edges of their own have one order,
    • `take_append_go`          the pass from an offset on is the edits from there on, one
                                after the other,
    • `applyEdits_sequential`   one pass does what the edits do one after the other,
                                in whatever order they are given.
-/
import EnumExtract.Proofs.Edits
import Mathlib.Algebra.BigOperators.Group.List.Basic
import Mathlib.Algebra.Ring.Nat
import Mathlib.Data.List.Nodup
import Mathlib.Data.List.Sort

namespace EnumExtract

namespace Edit

/-! ## §1. The order of edits. -/

/-- The stretch that the edit replaces. -/
def span (e : Edit) : Span :=
  ⟨e.start, e.stop⟩

/-- The edit starts before the other one, or it starts with it and stops no later. -/
def InOrder (a b : Edit) : Prop :=
  a.start < b.start ∨ (a.start = b.start ∧ a.stop ≤ b.stop)

theorem span_eq_of_inOrder {a b : Edit} (h : a.InOrder b) (h' : b.InOrder a) : a.span = b.span := by
  unfold InOrder at h h'
  have start : a.start = b.start := by omega
  have stop : a.stop = b.stop := by omega
  rw [span, span, start, stop]

theorem sorted_inOrder (edits : List Edit) : (sorted notAfter edits).Pairwise InOrder :=
  (sorted_pairwise notAfter_total notAfter_trans edits).imp notAfter_iff.mp

/-- **Edits with edges of their own have one order.** -/
theorem sorted_eq_of_inOrder {edits ordered : List Edit} (decisive : (edits.map span).Nodup)
    (perm : ordered.Perm edits) (inOrder : ordered.Pairwise InOrder) :
    sorted notAfter edits = ordered := by
  have sortedPerm : (sorted notAfter edits).Perm edits := sorted_perm edits
  refine List.Perm.eq_of_pairwise (fun a b ha hb h h' => ?_) (sorted_inOrder edits) inOrder
    (sortedPerm.trans perm.symm)
  -- neither stands behind the other, so they have the same edges
  exact List.inj_on_of_nodup_map decisive (sortedPerm.mem_iff.mp ha) (perm.mem_iff.mp hb)
    (span_eq_of_inOrder h h')

/-! ## §2. One edit after the other. -/

/-- The text with one edit made. -/
def madeIn (e : Edit) (t : Text) : Text :=
  t.take e.start ++ e.replacement ++ t.drop e.stop

/-- What stands in front of an edit's stop is where it was before the edits behind it were made. -/
theorem madeIn_append {e : Edit} {t : Text} (forward : e.start ≤ e.stop) (bound : e.stop ≤ t.length)
    (behind : Text) :
    e.madeIn (t.take e.stop ++ behind) = t.take e.start ++ e.replacement ++ behind := by
  have length : (t.take e.stop).length = e.stop := List.length_take_of_le bound
  have front : (t.take e.stop ++ behind).take e.start = t.take e.start := by
    rw [List.take_append_of_le_length (by omega), List.take_take, Nat.min_eq_left forward]
  have back : (t.take e.stop ++ behind).drop e.stop = behind := by
    rw [List.drop_append_of_le_length (by omega), List.drop_eq_nil_of_le (by omega), List.nil_append]
  rw [madeIn, front, back]

/-- How many characters the edits take out. -/
def removed (edits : List Edit) : Nat :=
  (edits.map fun e => e.stop - e.start).sum

/-- How many characters the edits put in. -/
def added (edits : List Edit) : Nat :=
  (edits.map (·.replacement.length)).sum

theorem removed_perm {edits edits' : List Edit} (h : edits.Perm edits') : removed edits = removed edits' :=
  (h.map _).sum_eq

theorem added_perm {edits edits' : List Edit} (h : edits.Perm edits') : added edits = added edits' :=
  (h.map _).sum_eq

end Edit

namespace Text

open Edit

variable {t : Text} {edits : List Edit}

theorem take_append_slice {i j : Nat} (le : i ≤ j) (t : Text) : t.take i ++ t.slice i j = t.take j := by
  rw [slice]
  conv_rhs => rw [← Nat.add_sub_cancel' le, List.take_add]

/-- **The pass from an offset on** is the edits from there on, made one after the other from the
last to the first. -/
theorem take_append_go (valid : Valid t edits) (order : edits.Pairwise fun a b => a.stop ≤ b.start) :
    ∀ {kept : Nat}, (∀ e ∈ edits, kept ≤ e.start) →
      t.take kept ++ applyEdits.go t kept edits = edits.foldr Edit.madeIn t := by
  induction edits with
  | nil =>
      intro kept _
      rw [applyEdits.go, List.take_append_drop, List.foldr_nil]
  | cons e rest ih =>
      intro kept after
      obtain ⟨first, order⟩ := List.pairwise_cons.mp order
      obtain ⟨forward, bound⟩ := valid e List.mem_cons_self
      -- behind the edit its stop is the offset that text is kept from
      have behind := ih valid.tail order first
      rw [applyEdits.go, List.foldr_cons, ← behind, madeIn_append forward bound]
      rw [← List.append_assoc, ← List.append_assoc, take_append_slice (after e List.mem_cons_self)]

/-- Each edit takes out its stretch and puts in its replacement. -/
theorem length_go (valid : Valid t edits) (order : edits.Pairwise fun a b => a.stop ≤ b.start) :
    ∀ {kept : Nat}, kept ≤ t.length → (∀ e ∈ edits, kept ≤ e.start) →
      (applyEdits.go t kept edits).length + kept + removed edits = t.length + added edits := by
  induction edits with
  | nil =>
      intro kept le _
      rw [applyEdits.go, List.length_drop]
      simp only [removed, added, List.map_nil, List.sum_nil]
      omega
  | cons e rest ih =>
      intro kept le after
      obtain ⟨first, order⟩ := List.pairwise_cons.mp order
      obtain ⟨forward, bound⟩ := valid e List.mem_cons_self
      have start := after e List.mem_cons_self
      have behind := ih valid.tail order bound first
      have between : (t.slice kept e.start).length = e.start - kept := by
        rw [slice, List.length_take_of_le (by rw [List.length_drop]; omega)]
      have out : removed (e :: rest) = e.stop - e.start + removed rest := List.sum_cons
      have into : added (e :: rest) = e.replacement.length + added rest := List.sum_cons
      rw [applyEdits.go, List.length_append, List.length_append, between, out, into]
      omega

/-- **Edits that lie apart and have edges of their own** can be given in any order.  There is one
way to put them in order, and one pass over them does what they do one after the other, the last
of them first.  The text gets shorter by what they take out and longer by what they put in. -/
theorem applyEdits_sequential (apart : edits.Pairwise Apart) (valid : Valid t edits)
    (decisive : (edits.map span).Nodup) :
    (∀ edits', edits'.Perm edits → t.applyEdits edits' = t.applyEdits edits)
      ∧ (∃ ordered, (∀ l : List Edit, l.Perm edits ∧ l.Pairwise InOrder ↔ l = ordered)
          ∧ t.applyEdits edits = ordered.foldr Edit.madeIn t)
      ∧ (t.applyEdits edits).length + removed edits = t.length + added edits := by
  have perm : (sorted notAfter edits).Perm edits := sorted_perm edits
  have sortedValid : Valid t (sorted notAfter edits) := fun e mem => valid e (perm.mem_iff.mp mem)
  have order := sorted_ordered apart valid
  -- given in another order, the edits are sorted to the same list
  refine ⟨fun edits' perm' => ?_, ⟨sorted notAfter edits, fun l => ⟨fun h => ?_, ?_⟩, ?_⟩, ?_⟩
  · have decisive' : (edits'.map span).Nodup := (perm'.map span).nodup_iff.mpr decisive
    have same := sorted_eq_of_inOrder decisive' (perm.trans perm'.symm) (sorted_inOrder edits)
    rw [applyEdits, applyEdits, same]
  · exact (sorted_eq_of_inOrder decisive h.1 h.2).symm
  · rintro rfl
    exact ⟨perm, sorted_inOrder edits⟩
  · exact take_append_go sortedValid order fun e _ => Nat.zero_le e.start
  · have length := length_go sortedValid order (Nat.zero_le _) fun e _ => Nat.zero_le e.start
    rw [removed_perm perm, added_perm perm] at length
    exact length

/-- A deletion with an insertion at either edge, and a replacement behind them. -/
def touchingEdits : List Edit :=
  [⟨5, 6, "F"⟩, ⟨2, 4, []⟩, ⟨4, 4, ">"⟩, ⟨2, 2, "<"⟩]

theorem touchingEdits_sequential :
    (touchingEdits.Pairwise Apart ∧ Valid "abcdef" touchingEdits ∧ (touchingEdits.map span).Nodup)
      ∧ (∀ edits, edits.Perm touchingEdits → Text.applyEdits "abcdef" edits = "ab<>eF")
      ∧ [⟨2, 2, "<"⟩, ⟨2, 4, []⟩, ⟨4, 4, ">"⟩, ⟨5, 6, "F"⟩].foldr Edit.madeIn "abcdef" = "ab<>eF" := by
  have apart : touchingEdits.Pairwise Apart := by decide
  have valid : Valid "abcdef" touchingEdits := by unfold Valid; decide
  have decisive : (touchingEdits.map span).Nodup := by decide
  refine ⟨⟨apart, valid, decisive⟩, fun edits perm => ?_, by decide⟩
  rw [(applyEdits_sequential apart valid decisive).1 edits perm]
  decide

/-- Two insertions at one offset are made in the order in which they are given. -/
example : Text.applyEdits [] [⟨0, 0, "a"⟩, ⟨0, 0, "b"⟩] = "ab"
    ∧ Text.applyEdits [] [⟨0, 0, "b"⟩, ⟨0, 0, "a"⟩] = "ba" := by decide

end Text

end EnumExtract
