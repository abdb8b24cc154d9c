/-
  EnumExtract.Proofs.Embedding
  ────────────────────────────────
  A text inside another one, in lines of its own.

  The text `t` stands in `t'` from offset `k` on.  What stands before it ends
  with a line feed, and if anything stands behind it, `t` does so too:

      t'  =  … ⏎ │ t │ …

  Whatever is done to a line of `t` is then done to the same line of `t'`.

  Main results:
    • `Embedded.removal`       a span is removed in the same way,
    • `Embedded.lineIndent`    a line has the same indentation,
    • `Text.applyEdits_append` edits of two texts are made side by side.
-/
import EnumExtract.Proofs.Edits

namespace EnumExtract

/-! ## §1. Lines. -/

/-- The span with its offsets changed. -/
def Span.relocated (f : Nat → Nat) (span : Span) : Span :=
  ⟨f span.start, f span.stop⟩

/-- The edit with its offsets changed. -/
def Edit.relocated (f : Nat → Nat) (edit : Edit) : Edit :=
  { edit with start := f edit.start, stop := f edit.stop }

/-- The text `t` stands in `t'` from offset `k` on, in lines of its own.  Its offsets up to `e` are
in front of its last line feed, if anything stands behind it. -/
structure Embedded (k e : Nat) (t t' : Text) : Prop where
  bound : e ≤ t.length
  parts : ∃ front back, t' = front ++ (t ++ back) ∧ front.length = k
    ∧ (front = [] ∨ front.getLast? = some '\n')
    ∧ (back = [] ∨ (e < t.length ∧ t.getLast? = some '\n'))

theorem takeWhile_append_of_mem {p : Char → Bool} {u v : Text} {ch : Char} (mem : ch ∈ u)
    (stop : p ch = false) : (u ++ v).takeWhile p = u.takeWhile p := by
  rw [List.takeWhile_append, if_neg fun whole => ?_]
  have all : u.takeWhile p = u := (List.takeWhile_prefix p).eq_of_length whole
  have pass : p ch = true := List.all_eq_true.mp List.all_takeWhile ch (all.symm ▸ mem)
  rw [stop] at pass
  cases pass

namespace Embedded

variable {k e i j : Nat} {t t' : Text}

theorem drop (E : Embedded k e t t') (le : i ≤ e) : ∃ back, t'.drop (i + k) = t.drop i ++ back
    ∧ t'.length = t.length + k + back.length
    ∧ (back = [] ∨ '\n' ∈ t.drop i) := by
  obtain ⟨front, back, rfl, rfl, _, behind⟩ := E.parts
  have bound := E.bound
  refine ⟨back, ?_, ?_, behind.imp id fun ⟨lt, last⟩ => ?_⟩
  · rw [List.drop_append, List.drop_of_length_le (by omega), List.nil_append, Nat.add_sub_cancel,
      List.drop_append_of_le_length (by omega)]
  · rw [List.length_append, List.length_append]
    omega
  · have kept : (t.drop i).getLast? = some '\n' := by
      rw [List.getLast?_drop, if_neg (by omega), last]
    exact List.mem_of_getLast? kept

/-- A run of characters that ends with its line is the same in both texts. -/
theorem takeWhile (E : Embedded k e t t') (le : i ≤ e) {p : Char → Bool} (feed : p '\n' = false) :
    (t'.drop (i + k)).takeWhile p = (t.drop i).takeWhile p := by
  obtain ⟨back, eq, _, behind⟩ := E.drop le
  rw [eq]
  rcases behind with none | mem
  · rw [none, List.append_nil]
  · exact takeWhile_append_of_mem mem feed

theorem slice (E : Embedded k e t t') (le : j ≤ t.length) :
    t'.slice (i + k) (j + k) = t.slice i j := by
  obtain ⟨front, back, rfl, rfl, _⟩ := E.parts
  unfold Text.slice
  rw [List.drop_append, List.drop_of_length_le (by omega), List.nil_append, Nat.add_sub_cancel,
    Nat.add_sub_add_right]
  by_cases forward : i ≤ j
  · rw [List.drop_append_of_le_length (by omega),
      List.take_append_of_le_length (by rw [List.length_drop]; omega)]
  · rw [show j - i = 0 from by omega, List.take_zero, List.take_zero]

theorem lineStart (E : Embedded k e t t') (le : i ≤ t.length) :
    t'.lineStart (i + k) = t.lineStart i + k := by
  obtain ⟨front, back, rfl, rfl, before, _⟩ := E.parts
  have cut : (front ++ (t ++ back)).take (i + front.length) = front ++ t.take i := by
    rw [List.take_append, List.take_of_length_le (by omega), Nat.add_sub_cancel,
      List.take_append_of_le_length le]
  -- the line that `t` begins with has nothing in front
  have line : ((front ++ t.take i).reverse.takeWhile (· != '\n')).length
      = ((t.take i).reverse.takeWhile (· != '\n')).length := by
    have none : front.reverse.takeWhile (· != '\n') = [] := by
      rcases before with rfl | last
      · rfl
      · obtain ⟨rest, eq⟩ := List.head?_eq_some_iff.mp ((List.head?_reverse).trans last)
        rw [eq]
        rfl
    rw [List.reverse_append, List.takeWhile_append, none, List.append_nil]
    split
    next whole => exact whole.symm
    next => rfl
  have fits := (List.takeWhile_prefix (l := (t.take i).reverse) (· != '\n')).length_le
  rw [List.length_reverse] at fits
  unfold Text.lineStart
  rw [cut, line, List.length_append]
  omega

/-- A line in front of the end of the text ends in front of it, if anything stands behind. -/
theorem lineStop (E : Embedded k e t t') (le : i ≤ e) :
    t'.lineStop (i + k) = t.lineStop i + k
      ∧ min (t.lineStop i + k + 1) t'.length = min (t.lineStop i + 1) t.length + k := by
  obtain ⟨back, _, length, behind⟩ := E.drop le
  have run := E.takeWhile le (p := (· != '\n')) rfl
  have bound := E.bound
  unfold Text.lineStop
  rw [run]
  rcases behind with rfl | mem
  · rw [length, List.length_nil]
    omega
  · have shorter : ((t.drop i).takeWhile (· != '\n')).length < (t.drop i).length := by
      refine Nat.lt_of_le_of_ne (List.takeWhile_prefix _).length_le fun whole => ?_
      have all : (t.drop i).takeWhile (· != '\n') = t.drop i :=
        (List.takeWhile_prefix _).eq_of_length whole
      have pass := List.all_eq_true.mp List.all_takeWhile '\n' (all.symm ▸ mem)
      cases pass
    rw [List.length_drop] at shorter
    omega

/-- **A line has the same indentation** in both texts. -/
theorem lineIndent (E : Embedded k e t t') (le : i ≤ e) : t'.lineIndent (i + k) = t.lineIndent i := by
  have bound := E.bound
  unfold Text.lineIndent
  rw [E.lineStart (by omega), E.slice (by omega)]

/-- **A span is removed in the same way** from both texts. -/
theorem removal (E : Embedded k e t t') {span : Span} (start : span.start ≤ e) (stop : span.stop ≤ e) :
    t'.removal (span.relocated (· + k)) = (t.removal span).relocated (· + k) := by
  have bound := E.bound
  obtain ⟨lineStop, cut⟩ := E.lineStop stop
  have within : t.lineStop span.stop ≤ t.length := Nat.min_le_right _ _
  unfold Text.removal Span.relocated
  simp only
  rw [E.lineStart (by omega), lineStop, E.slice (by omega), E.slice within, E.takeWhile stop rfl]
  split
  · unfold Edit.relocated
    rw [cut]
  · unfold Edit.relocated
    rw [Nat.add_right_comm]

end Embedded

/-- A removal stays in its text. -/
theorem Text.removal_le {t : Text} {span : Span} (start : span.start ≤ t.length)
    (stop : span.stop ≤ t.length) :
    (t.removal span).start ≤ t.length ∧ (t.removal span).stop ≤ t.length := by
  unfold Text.removal
  simp only
  split
  · refine ⟨?_, Nat.min_le_right _ _⟩
    show t.lineStart span.start ≤ t.length
    have fits := List.length_take_le' span.start t
    unfold Text.lineStart
    omega
  · have fits := (List.takeWhile_prefix (l := t.drop span.stop) fun c => c == ' ' || c == '\t').length_le
    rw [List.length_drop] at fits
    exact ⟨start, by show span.stop + _ ≤ _; omega⟩

/-! ## §2. Edits side by side. -/

theorem insertSorted_append {α : Type} {notAfter : α → α → Bool} {x : α} {ys : List α}
    (before : ∀ y ∈ ys, notAfter x y = true) (xs : List α) :
    insertSorted notAfter x (xs ++ ys) = insertSorted notAfter x xs ++ ys := by
  induction xs with
  | nil =>
      cases ys with
      | nil => rfl
      | cons y ys =>
          show insertSorted notAfter x (y :: ys) = x :: y :: ys
          rw [insertSorted, if_pos (before y List.mem_cons_self)]
  | cons z xs ih =>
      rw [List.cons_append, insertSorted, insertSorted]
      split
      · rfl
      · rw [ih, List.cons_append]

/-- Lists one of which is in front of the other are sorted each for itself. -/
theorem sorted_append {α : Type} {notAfter : α → α → Bool} {xs ys : List α}
    (before : ∀ x ∈ xs, ∀ y ∈ ys, notAfter x y = true) :
    sorted notAfter (xs ++ ys) = sorted notAfter xs ++ sorted notAfter ys := by
  induction xs with
  | nil => rfl
  | cons x xs ih =>
      show insertSorted notAfter x (sorted notAfter (xs ++ ys)) = _
      rw [ih fun x' mem => before x' (List.mem_cons_of_mem _ mem), insertSorted_append fun y mem =>
        before x List.mem_cons_self y ((sorted_perm ys).mem_iff.mp mem)]
      rfl

/-- A map that keeps the order can be made before or after sorting. -/
theorem sorted_map {α : Type} {notAfter : α → α → Bool} {f : α → α}
    (keeps : ∀ a b, notAfter (f a) (f b) = notAfter a b) (xs : List α) :
    sorted notAfter (xs.map f) = (sorted notAfter xs).map f := by
  have insert (x : α) (ys : List α) :
      insertSorted notAfter (f x) (ys.map f) = (insertSorted notAfter x ys).map f := by
    induction ys with
    | nil => rfl
    | cons y ys ih =>
        rw [List.map_cons, insertSorted, insertSorted, keeps]
        split
        · rfl
        · rw [ih, List.map_cons]
  induction xs with
  | nil => rfl
  | cons x xs ih =>
      show insertSorted notAfter (f x) (sorted notAfter (xs.map f)) = _
      rw [ih, insert]
      rfl

namespace Text

variable {t u : Text}

theorem applyEdits_go_behind (edits : List Edit) : ∀ j : Nat,
    applyEdits.go (t ++ u) (j + t.length) (edits.map (·.relocated (· + t.length)))
      = applyEdits.go u j edits := by
  have behind (j : Nat) : (t ++ u).drop (j + t.length) = u.drop j := by
    rw [List.drop_append, List.drop_of_length_le (by omega), List.nil_append, Nat.add_sub_cancel]
  induction edits with
  | nil =>
      intro j
      exact behind j
  | cons edit edits ih =>
      intro j
      rw [List.map_cons, applyEdits.go, applyEdits.go]
      show (t ++ u).slice (j + t.length) (edit.start + t.length) ++ edit.replacement
        ++ applyEdits.go (t ++ u) (edit.stop + t.length) _ = _
      rw [ih, slice, slice, behind, Nat.add_sub_add_right]

theorem applyEdits_go_append {xs : List Edit} (ys : List Edit) : ∀ {kept : Nat}, kept ≤ t.length →
    (∀ e ∈ xs, e.start ≤ t.length ∧ e.stop ≤ t.length) →
      applyEdits.go (t ++ u) kept (xs ++ ys.map (·.relocated (· + t.length)))
        = applyEdits.go t kept xs ++ applyEdits.go u 0 ys := by
  induction xs with
  | nil =>
      intro kept le _
      rw [List.nil_append, applyEdits.go]
      cases ys with
      | nil => exact List.drop_append_of_le_length le
      | cons edit ys =>
          rw [List.map_cons, applyEdits.go, applyEdits.go]
          show (t ++ u).slice kept (edit.start + t.length) ++ edit.replacement
            ++ applyEdits.go (t ++ u) (edit.stop + t.length) _ = _
          rw [applyEdits_go_behind]
          have across : (t ++ u).slice kept (edit.start + t.length) = t.drop kept ++ u.slice 0 edit.start := by
            rw [slice, slice, List.drop_append_of_le_length le, List.take_append,
              List.take_of_length_le (by rw [List.length_drop]; omega), List.length_drop]
            congr 2
            omega
          rw [across, List.append_assoc, List.append_assoc, List.append_assoc]
  | cons edit xs ih =>
      intro kept le inside
      obtain ⟨start, stop⟩ := inside edit List.mem_cons_self
      rw [List.cons_append, applyEdits.go, applyEdits.go,
        ih stop fun e mem => inside e (List.mem_cons_of_mem _ mem)]
      have here : (t ++ u).slice kept edit.start = t.slice kept edit.start := by
        rw [slice, slice, List.drop_append_of_le_length le,
          List.take_append_of_le_length (by rw [List.length_drop]; omega)]
      rw [here, List.append_assoc, List.append_assoc, List.append_assoc]

/-- **Edits of two texts are made side by side** in the text of both. -/
theorem applyEdits_append {xs : List Edit} (ys : List Edit)
    (inside : ∀ e ∈ xs, e.start ≤ t.length ∧ e.stop ≤ t.length) :
    (t ++ u).applyEdits (xs ++ ys.map (·.relocated (· + t.length))) = t.applyEdits xs ++ u.applyEdits ys := by
  have ordered : sorted Edit.notAfter (xs ++ ys.map (·.relocated (· + t.length)))
      = sorted Edit.notAfter xs ++ (sorted Edit.notAfter ys).map (·.relocated (· + t.length)) := by
    rw [sorted_append, sorted_map]
    · intro a b
      simp only [Edit.notAfter, Edit.relocated, Nat.add_lt_add_iff_right, Nat.add_le_add_iff_right,
        Bool.beq_eq_decide_eq, Nat.add_right_cancel_iff]
    · intro x hx y hy
      obtain ⟨edit, _, rfl⟩ := List.mem_map.mp hy
      have bounds := inside x hx
      refine Edit.notAfter_iff.mpr ?_
      show x.start < edit.start + t.length ∨ x.start = edit.start + t.length ∧ x.stop ≤ edit.stop + t.length
      omega
  unfold applyEdits
  rw [ordered]
  exact applyEdits_go_append _ (Nat.zero_le _) fun e mem => inside e ((sorted_perm xs).mem_iff.mp mem)

end Text

end EnumExtract
