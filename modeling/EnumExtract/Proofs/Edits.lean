/-
  EnumExtract.Proofs.Edits
  ────────────────────────────────
  Making edits, character by character.

  `rewritten` says what a text with edits is without any order of the edits:
  at every offset stand the insertions made there, then what replaces the
  stretch that starts there, then the character itself unless some edit covers
  it.  Edits that lie apart are made in just this way.

  Main results:
    • `applyEdits_eq`        making edits that lie apart rewrites the text,
    • `removal_spec`         besides its span a removal takes blanks only,
    • `Edit.IsFor.ordered`   removals of spans that lie apart lie apart.
-/
import EnumExtract.Edit
import Mathlib.Data.List.Perm.Basic
import Mathlib.Data.Nat.Init

namespace EnumExtract

/-! ## §1. Rewriting. -/

namespace Edit

/-- The edits touch no common character. -/
def Apart (a b : Edit) : Prop :=
  a.stop ≤ b.start ∨ b.stop ≤ a.start

instance (a b : Edit) : Decidable (a.Apart b) :=
  inferInstanceAs (Decidable (_ ∨ _))

/-- The edit puts something between two characters. -/
def isInsertion (e : Edit) : Bool :=
  e.start = e.stop

/-- What is written at offset `i`: the insertions there, then what replaces the stretch that
starts there. -/
def writtenAt (edits : List Edit) (i : Nat) : Text :=
  (edits.filter fun e => e.start = i && e.isInsertion).flatMap (·.replacement)
    ++ (edits.filter fun e => e.start = i && !e.isInsertion).flatMap (·.replacement)

/-- Some edit replaces the character at offset `i`. -/
def covered (edits : List Edit) (i : Nat) : Bool :=
  edits.any fun e => e.start ≤ i && i < e.stop

end Edit

/-- The text from offset `i` on with the edits made: every character that no edit covers, in
order, and what the edits write in its place. -/
def Text.rewritten (edits : List Edit) (i : Nat) : Text → Text
  | [] => Edit.writtenAt edits i
  | c :: rest =>
      Edit.writtenAt edits i ++ (if Edit.covered edits i then [] else [c])
        ++ rewritten edits (i + 1) rest

/-! ## §2. Sorting edits. -/

section Sorting

variable {α : Type} {notAfter : α → α → Bool}

theorem insertSorted_perm (x : α) (xs : List α) : (insertSorted notAfter x xs).Perm (x :: xs) := by
  induction xs with
  | nil => exact .refl _
  | cons y rest ih =>
      rw [insertSorted]
      split
      · exact .refl _
      · exact (ih.cons y).trans (.swap x y rest)

theorem sorted_perm (xs : List α) : (sorted notAfter xs).Perm xs := by
  induction xs with
  | nil => exact .refl _
  | cons x xs ih => exact (insertSorted_perm x _).trans (ih.cons x)

theorem insertSorted_pairwise (total : ∀ a b, notAfter a b = false → notAfter b a = true)
    (trans : ∀ a b c, notAfter a b = true → notAfter b c = true → notAfter a c = true) (x : α)
    {xs : List α} (h : xs.Pairwise (notAfter · · = true)) :
    (insertSorted notAfter x xs).Pairwise (notAfter · · = true) := by
  induction h with
  | nil => exact List.pairwise_singleton _ _
  | @cons y rest first tail ih =>
      rw [insertSorted]
      split
      next before =>
        refine List.pairwise_cons.mpr ⟨fun z mem => ?_, List.pairwise_cons.mpr ⟨first, tail⟩⟩
        rcases List.mem_cons.mp mem with rfl | mem
        · exact before
        · exact trans x y z before (first z mem)
      next after =>
        refine List.pairwise_cons.mpr ⟨fun z mem => ?_, ih⟩
        rcases List.mem_cons.mp ((insertSorted_perm x rest).mem_iff.mp mem) with rfl | mem
        · exact total _ _ (by simpa using after)
        · exact first z mem

theorem sorted_pairwise (total : ∀ a b, notAfter a b = false → notAfter b a = true)
    (trans : ∀ a b c, notAfter a b = true → notAfter b c = true → notAfter a c = true)
    (xs : List α) : (sorted notAfter xs).Pairwise (notAfter · · = true) := by
  induction xs with
  | nil => exact .nil
  | cons x xs ih => exact insertSorted_pairwise total trans x ih

/-- Elements that compare equal keep their order. -/
theorem filter_sorted {p : α → Bool} (equal : ∀ a b, p a = true → p b = true → notAfter a b = true)
    (xs : List α) : (sorted notAfter xs).filter p = xs.filter p := by
  have insert (x : α) (ys : List α) :
      (insertSorted notAfter x ys).filter p = (x :: ys).filter p := by
    induction ys with
    | nil => rfl
    | cons y rest ih =>
        rw [insertSorted]
        split
        next => rfl
        next after =>
          rw [List.filter_cons, ih, List.filter_cons, List.filter_cons, List.filter_cons]
          cases hx : p x with
          | false => simp
          | true =>
              cases hy : p y with
              | false => simp
              | true => exact absurd (equal x y hx hy) after
  induction xs with
  | nil => rfl
  | cons x xs ih =>
      show (insertSorted notAfter x (sorted notAfter xs)).filter p = _
      rw [insert, List.filter_cons, List.filter_cons, ih]

end Sorting

namespace Edit

theorem notAfter_iff {a b : Edit} :
    notAfter a b = true ↔ a.start < b.start ∨ a.start = b.start ∧ a.stop ≤ b.stop := by
  simp only [notAfter, Bool.or_eq_true, Bool.and_eq_true, decide_eq_true_iff, beq_iff_eq]

theorem notAfter_total (a b : Edit) (h : notAfter a b = false) : notAfter b a = true := by
  simp only [notAfter, Bool.or_eq_false_iff, Bool.or_eq_true, Bool.and_eq_false_iff,
    Bool.and_eq_true, decide_eq_false_iff_not, decide_eq_true_iff, beq_iff_eq,
    beq_eq_false_iff_ne] at h ⊢
  omega

theorem notAfter_trans (a b c : Edit) (h : notAfter a b = true) (h' : notAfter b c = true) :
    notAfter a c = true := by
  rw [notAfter_iff] at h h' ⊢
  omega

/-- The edits of a text: none ends before it starts or goes past the end of the text. -/
def Valid (t : Text) (edits : List Edit) : Prop :=
  ∀ e ∈ edits, e.start ≤ e.stop ∧ e.stop ≤ t.length

theorem Valid.tail {t : Text} {e : Edit} {rest : List Edit} (h : Valid t (e :: rest)) : Valid t rest :=
  fun e' mem => h e' (List.mem_cons_of_mem e mem)

/-- Edits that lie apart follow one another once they are sorted. -/
theorem sorted_ordered {edits : List Edit} (apart : edits.Pairwise Apart) {t : Text}
    (valid : Valid t edits) :
    (sorted notAfter edits).Pairwise fun a b => a.stop ≤ b.start := by
  have perm : (sorted notAfter edits).Perm edits := sorted_perm edits
  have apart' : (sorted notAfter edits).Pairwise Apart :=
    (perm.pairwise_iff fun h => h.symm).mpr apart
  refine ((sorted_pairwise notAfter_total notAfter_trans edits).and apart').imp_of_mem ?_
  rintro a b ha hb ⟨order, h⟩
  have := valid a (perm.mem_iff.mp ha)
  have := valid b (perm.mem_iff.mp hb)
  rw [notAfter_iff] at order
  rcases h with h | h
  · exact h
  · omega

/-- At most one of several edits that lie apart replaces a stretch from offset `i` on. -/
theorem length_replacing_le {edits : List Edit} (apart : edits.Pairwise Apart) {t : Text}
    (valid : Valid t edits) (i : Nat) :
    (edits.filter fun e => e.start = i && !e.isInsertion).length ≤ 1 := by
  have apart' := apart.filter fun e => e.start = i && !e.isInsertion
  cases eq : edits.filter fun e => e.start = i && !e.isInsertion with
  | nil => exact Nat.zero_le _
  | cons a rest =>
      cases rest with
      | nil => exact Nat.le_refl _
      | cons b rest =>
          have spec (e : Edit) (mem : e ∈ a :: b :: rest) : e.start = i ∧ e.start < e.stop := by
            rw [← eq, List.mem_filter, Bool.and_eq_true, decide_eq_true_iff, isInsertion,
              Bool.not_eq_true', decide_eq_false_iff_not] at mem
            have := valid e mem.1
            omega
          have ha := spec a List.mem_cons_self
          have hb := spec b (List.mem_cons_of_mem a List.mem_cons_self)
          rw [eq, List.pairwise_cons] at apart'
          have := apart'.1 b List.mem_cons_self
          rw [Apart] at this
          omega

theorem writtenAt_sorted {edits : List Edit} (apart : edits.Pairwise Apart) {t : Text}
    (valid : Valid t edits) (i : Nat) :
    writtenAt (sorted notAfter edits) i = writtenAt edits i := by
  have insertions : (sorted notAfter edits).filter (fun e => e.start = i && e.isInsertion)
      = edits.filter fun e => e.start = i && e.isInsertion := by
    refine filter_sorted (fun a b ha hb => ?_) edits
    simp only [isInsertion, Bool.and_eq_true, decide_eq_true_iff] at ha hb
    simp only [notAfter, Bool.or_eq_true, Bool.and_eq_true, decide_eq_true_iff, beq_iff_eq]
    omega
  have perm : ((sorted notAfter edits).filter fun e => e.start = i && !e.isInsertion).Perm
      (edits.filter fun e => e.start = i && !e.isInsertion) := (sorted_perm edits).filter _
  have few := length_replacing_le apart valid i
  have replacements : (sorted notAfter edits).filter (fun e => e.start = i && !e.isInsertion)
      = edits.filter fun e => e.start = i && !e.isInsertion := by
    cases eq : edits.filter fun e => e.start = i && !e.isInsertion with
    | nil =>
        rw [eq] at perm
        exact perm.eq_nil
    | cons a rest =>
        rw [eq] at perm few
        cases rest with
        | nil => exact perm.eq_singleton
        | cons b rest => simp at few
  rw [writtenAt, insertions, replacements, writtenAt]

theorem covered_sorted (edits : List Edit) (i : Nat) :
    covered (sorted notAfter edits) i = covered edits i :=
  (sorted_perm edits).any_eq

end Edit

/-! ## §3. Making edits. -/

namespace Text

open Edit

/-- Two lists of edits that write and cover the same from offset `i` on rewrite the same way. -/
theorem rewritten_congr {edits edits' : List Edit} (u : Text) : ∀ {i : Nat},
    (∀ j, i ≤ j → writtenAt edits j = writtenAt edits' j) →
      (∀ j, i ≤ j → covered edits j = covered edits' j) →
        rewritten edits i u = rewritten edits' i u := by
  induction u with
  | nil =>
      intro i written _
      exact written i (Nat.le_refl i)
  | cons c u ih =>
      intro i written cover
      rw [rewritten, rewritten, written i (Nat.le_refl i), cover i (Nat.le_refl i),
        ih (fun j le => written j (by omega)) fun j le => cover j (by omega)]

theorem rewritten_nil (i : Nat) (u : Text) : rewritten [] i u = u := by
  induction u generalizing i with
  | nil => rfl
  | cons c u ih =>
      rw [rewritten, ih]
      rfl

/-- A stretch in which nothing is written and nothing is covered is kept. -/
theorem rewritten_kept {edits : List Edit} (t : Text) {i j : Nat} (le : i ≤ j) (bound : j ≤ t.length)
    (written : ∀ k, i ≤ k → k < j → writtenAt edits k = [])
    (cover : ∀ k, i ≤ k → k < j → covered edits k = false) :
    rewritten edits i (t.drop i) = t.slice i j ++ rewritten edits j (t.drop j) := by
  induction j, le using Nat.le_induction with
  | base => simp [slice]
  | succ j le ih =>
      have lt : j < t.length := by omega
      rw [ih (by omega) (fun k le lt => written k le (by omega)) fun k le lt => cover k le (by omega),
        List.drop_eq_getElem_cons lt, rewritten, written j le (by omega), cover j le (by omega)]
      have longer : t.slice i (j + 1) = t.slice i j ++ [t[j]] := by
        rw [slice, slice, show j + 1 - i = j - i + 1 from by omega, List.take_add_one,
          List.getElem?_drop, show i + (j - i) = j from by omega, List.getElem?_eq_getElem lt]
        rfl
      rw [longer]
      simp

/-- A stretch in which nothing is written and everything is covered is left out. -/
theorem rewritten_covered {edits : List Edit} (t : Text) {i j : Nat} (le : i ≤ j)
    (bound : j ≤ t.length) (written : ∀ k, i ≤ k → k < j → writtenAt edits k = [])
    (cover : ∀ k, i ≤ k → k < j → covered edits k = true) :
    rewritten edits i (t.drop i) = rewritten edits j (t.drop j) := by
  induction j, le using Nat.le_induction with
  | base => rfl
  | succ j le ih =>
      have lt : j < t.length := by omega
      rw [ih (by omega) (fun k le lt => written k le (by omega)) fun k le lt => cover k le (by omega),
        List.drop_eq_getElem_cons lt, rewritten, written j le (by omega), cover j le (by omega)]
      rfl

end Text

namespace Edit

/-- Edits that start elsewhere write nothing at offset `i`. -/
theorem writtenAt_eq_nil {edits : List Edit} {i : Nat} (h : ∀ e ∈ edits, e.start ≠ i) :
    writtenAt edits i = [] := by
  have none (p : Edit → Bool) : (edits.filter fun e => e.start = i && p e) = [] := by
    rw [List.filter_eq_nil_iff]
    intro e mem
    simp [h e mem]
  rw [writtenAt, none, none]
  rfl

theorem covered_eq_false {edits : List Edit} {i : Nat} (h : ∀ e ∈ edits, i < e.start ∨ e.stop ≤ i) :
    covered edits i = false := by
  rw [covered, List.any_eq_false]
  intro e mem
  have := h e mem
  simp only [Bool.and_eq_true, decide_eq_true_iff]
  omega

theorem covered_cons (e : Edit) (edits : List Edit) (i : Nat) :
    covered (e :: edits) i = ((e.start ≤ i && i < e.stop) || covered edits i) :=
  rfl

theorem writtenAt_cons_ne {e : Edit} {edits : List Edit} {i : Nat} (h : e.start ≠ i) :
    writtenAt (e :: edits) i = writtenAt edits i := by
  rw [writtenAt, writtenAt, List.filter_cons, List.filter_cons]
  simp [h]

end Edit

namespace Text

open Edit

/-- Edits in order are made as the text is rewritten. -/
theorem applyEdits_go_eq (t : Text) {edits : List Edit} : ∀ {kept : Nat}, kept ≤ t.length →
    (∀ e ∈ edits, kept ≤ e.start) → Valid t edits →
      edits.Pairwise (fun a b => a.stop ≤ b.start) →
        applyEdits.go t kept edits = rewritten edits kept (t.drop kept) := by
  induction edits with
  | nil =>
      intro kept _ _ _ _
      rw [applyEdits.go, rewritten_nil]
  | cons e rest ih =>
      intro kept bound after valid order
      obtain ⟨first, order⟩ := List.pairwise_cons.mp order
      obtain ⟨forward, inside⟩ := valid e List.mem_cons_self
      have start := after e List.mem_cons_self
      have later : ∀ e' ∈ rest, e.start ≤ e'.start := fun e' mem => by
        have := first e' mem
        omega
      rw [applyEdits.go, ih inside first valid.tail order]
      -- up to the edit everything is kept
      rw [rewritten_kept t start (by omega) (fun k le lt => writtenAt_eq_nil fun e' mem => ?_)
        fun k le lt => covered_eq_false fun e' mem => ?_]
      · rw [List.append_assoc]
        congr 1
        rcases Nat.eq_or_lt_of_le forward with same | longer
        · -- an insertion is written before all else at its offset
          rw [same]
          have insertion : e.isInsertion = true := by rw [isInsertion, same]; simp
          have here : writtenAt (e :: rest) e.stop = e.replacement ++ writtenAt rest e.stop := by
            rw [writtenAt, writtenAt, List.filter_cons, List.filter_cons]
            simp [same, insertion]
          have cover : ∀ j, covered (e :: rest) j = covered rest j := fun j => by
            rw [covered_cons, same]
            have : (decide (e.stop ≤ j) && decide (j < e.stop)) = false := by
              rw [Bool.and_eq_false_iff, decide_eq_false_iff_not, decide_eq_false_iff_not]
              omega
            rw [this, Bool.false_or]
          have tail (u : Text) : rewritten (e :: rest) (e.stop + 1) u = rewritten rest (e.stop + 1) u :=
            rewritten_congr u (fun j le => writtenAt_cons_ne (by omega)) fun j _ => cover j
          cases t.drop e.stop with
          | nil => rw [rewritten, rewritten, here]
          | cons c u => rw [rewritten, rewritten, here, cover, tail]; simp
        · -- a replacement is written in place of what it covers
          have lt : e.start < t.length := by omega
          have replacing : e.isInsertion = false := by
            rw [isInsertion, decide_eq_false_iff_not]
            omega
          have none : writtenAt rest e.start = [] := writtenAt_eq_nil fun e' mem => by
            have := first e' mem
            omega
          have here : writtenAt (e :: rest) e.start = e.replacement := by
            rw [writtenAt] at none ⊢
            rw [List.append_eq_nil_iff] at none
            rw [List.filter_cons, List.filter_cons]
            simp [replacing, none.1, none.2]
          have cover : ∀ j, e.start ≤ j → j < e.stop → covered (e :: rest) j = true := by
            intro j le lt
            rw [covered_cons]
            simp [le, lt]
          rw [List.drop_eq_getElem_cons lt, rewritten, here,
            cover e.start (Nat.le_refl _) longer, if_pos rfl, List.append_nil]
          rw [rewritten_covered t longer inside (fun k le lt => ?_) fun k le lt => cover k (by omega) lt]
          · congr 1
            exact (rewritten_congr _ (fun j le => writtenAt_cons_ne (by omega)) fun j le => by
              rw [covered_cons]
              simp [Nat.not_lt.mpr le]).symm
          · rw [writtenAt_cons_ne (by omega)]
            exact writtenAt_eq_nil fun e' mem => by
              have := first e' mem
              omega
      · rcases List.mem_cons.mp mem with rfl | mem
        · omega
        · have := later e' mem
          omega
      · rcases List.mem_cons.mp mem with rfl | mem
        · omega
        · have := later e' mem
          omega

/-- **Making edits that lie apart rewrites the text** character by character. -/
theorem applyEdits_eq {t : Text} {edits : List Edit} (apart : edits.Pairwise Apart)
    (valid : Valid t edits) : t.applyEdits edits = rewritten edits 0 t := by
  have perm : (sorted notAfter edits).Perm edits := sorted_perm edits
  rw [applyEdits, applyEdits_go_eq t (Nat.zero_le _) (fun e _ => Nat.zero_le _)
    (fun e mem => valid e (perm.mem_iff.mp mem)) (sorted_ordered apart valid)]
  exact rewritten_congr t (fun j _ => writtenAt_sorted apart valid j) fun j _ => covered_sorted edits j

end Text

/-! ## §4. Removals. -/

/-- From offset `i` up to offset `j` the text is blank. -/
def Text.BlankBetween (t : Text) (i j : Nat) : Prop :=
  ∀ k ch, i ≤ k → k < j → t[k]? = some ch → EnumExtract.isBlank ch = true

namespace Text

theorem isBlank_slice {t : Text} {i j : Nat} : (t.slice i j).isBlank = true ↔ t.BlankBetween i j := by
  rw [Text.isBlank, slice, List.all_eq_true]
  constructor
  · intro h k ch le lt found
    refine h ch (List.mem_of_getElem? (i := k - i) ?_)
    rw [List.getElem?_take, if_pos (by omega), List.getElem?_drop, show i + (k - i) = k from by omega,
      found]
  · intro h ch mem
    obtain ⟨k, found⟩ := List.mem_iff_getElem?.mp mem
    rw [List.getElem?_take] at found
    split at found
    next lt =>
      rw [List.getElem?_drop] at found
      exact h (i + k) ch (by omega) (by omega) found
    next => cases found

/-- A line starts at the start of the text or behind a line feed, and holds none before `i`. -/
theorem lineStart_spec (t : Text) (i : Nat) :
    t.lineStart i ≤ i ∧ (t.lineStart i = 0 ∨ t[t.lineStart i - 1]? = some '\n') := by
  have cut := List.takeWhile_append_dropWhile (p := (· != '\n')) (l := (t.take i).reverse)
  have total := congrArg List.length cut
  rw [List.length_append, List.length_reverse] at total
  have start : t.lineStart i = ((t.take i).reverse.dropWhile (· != '\n')).length := by
    rw [lineStart]
    omega
  have le : (t.take i).length ≤ i := List.length_take_le i t
  refine ⟨by omega, ?_⟩
  cases eq : (t.take i).reverse.dropWhile (· != '\n') with
  | nil =>
      left
      rw [start, eq, List.length_nil]
  | cons c rest =>
      right
      have feed : c = '\n' := by
        have := List.head?_dropWhile_not (· != '\n') (t.take i).reverse
        rw [eq] at this
        simpa using this
      have back : t.take i = rest.reverse ++ c :: ((t.take i).reverse.takeWhile (· != '\n')).reverse := by
        rw [eq] at cut
        rw [← List.reverse_reverse (t.take i)]
        conv_lhs => rw [← cut]
        simp
      rw [start, eq, List.length_cons, Nat.add_sub_cancel]
      have found : (t.take i)[rest.length]? = some c := by
        rw [back, List.getElem?_append_right (by simp)]
        simp
      rw [← feed, ← found, List.getElem?_take, if_pos]
      rw [eq, List.length_cons] at total
      omega

theorem getElem?_takeWhile {p : Char → Bool} {u : Text} {k : Nat} (lt : k < (u.takeWhile p).length) :
    ∃ ch, u[k]? = some ch ∧ p ch = true := by
  refine ⟨(u.takeWhile p)[k], ?_, List.all_eq_true.mp List.all_takeWhile _ (List.getElem_mem lt)⟩
  conv_lhs => rw [← List.takeWhile_append_dropWhile (p := p) (l := u)]
  rw [List.getElem?_append_left lt, List.getElem?_eq_getElem]

/-- A line goes on to its line feed or to the end of the text. -/
theorem lineStop_spec {t : Text} {i : Nat} (bound : i ≤ t.length) :
    i ≤ t.lineStop i ∧ t.lineStop i ≤ t.length
      ∧ (∀ k, i ≤ k → k < t.lineStop i → t[k]? ≠ some '\n')
      ∧ (t.lineStop i < t.length → t[t.lineStop i]? = some '\n') := by
  have le : ((t.drop i).takeWhile (· != '\n')).length ≤ (t.drop i).length :=
    (List.takeWhile_sublist _).length_le
  rw [List.length_drop] at le
  have eq : t.lineStop i = i + ((t.drop i).takeWhile (· != '\n')).length := by
    rw [lineStop]
    omega
  refine ⟨by omega, by omega, fun k le lt feed => ?_, fun lt => ?_⟩
  · obtain ⟨ch, found, other⟩ := getElem?_takeWhile (p := (· != '\n')) (u := t.drop i) (k := k - i)
      (by omega)
    rw [List.getElem?_drop, show i + (k - i) = k from by omega, feed] at found
    cases found
    cases other
  · have cut := List.takeWhile_append_dropWhile (p := (· != '\n')) (l := t.drop i)
    have found := congrArg (·[((t.drop i).takeWhile (· != '\n')).length]?) cut
    simp only [List.getElem?_append_right (Nat.le_refl _), Nat.sub_self, List.getElem?_drop] at found
    rw [eq, ← found]
    cases rest : (t.drop i).dropWhile (· != '\n') with
    | nil =>
        have total := congrArg List.length cut
        rw [rest, List.append_nil, List.length_drop] at total
        omega
    | cons c u =>
        have := List.head?_dropWhile_not (· != '\n') (t.drop i)
        rw [rest] at this
        simpa using this

end Text

/-- What a removal of the span takes besides it. -/
structure RemovalSpec (t : Text) (span : Span) (edit : Edit) : Prop where
  start_le : edit.start ≤ span.start
  le_stop : span.stop ≤ edit.stop
  bound : edit.stop ≤ t.length
  empty : edit.replacement = []
  before : t.BlankBetween edit.start span.start
  after : t.BlankBetween span.stop edit.stop
  /-- What is taken before the span is taken from the start of its line. -/
  line : edit.start = span.start ∨ edit.start = 0 ∨ t[edit.start - 1]? = some '\n'
  /-- Behind the span at most the end of its line is taken. -/
  feed : ∀ k, span.stop ≤ k → k < edit.stop → t[k]? = some '\n' → k + 1 = edit.stop

/-- **Besides its span a removal takes blanks only.** -/
theorem removal_spec {t : Text} {span : Span} (bound : span.stop ≤ t.length) :
    RemovalSpec t span (t.removal span) := by
  obtain ⟨startLe, line⟩ := t.lineStart_spec span.start
  obtain ⟨leStop, stopLe, noFeed, feed⟩ := Text.lineStop_spec bound
  rw [Text.removal]
  simp only
  split
  next whole =>
    rw [Bool.and_eq_true, Text.isBlank_slice, Text.isBlank_slice] at whole
    refine ⟨startLe, by simp only; omega, by simp only; omega, rfl, whole.1, ?_, .inr line, ?_⟩
    · intro k ch le lt found
      simp only at lt
      rcases Nat.lt_or_ge k (t.lineStop span.stop) with before | atEnd
      · exact whole.2 k ch le before found
      · have eq : k = t.lineStop span.stop := by omega
        rw [eq, feed (by omega)] at found
        cases found
        rfl
    · intro k le lt found
      simp only at lt ⊢
      rcases Nat.lt_or_ge k (t.lineStop span.stop) with before | atEnd
      · exact absurd found (noFeed k le before)
      · omega
  next =>
    have gap (k : Nat) (le : span.stop ≤ k)
        (lt : k < span.stop + ((t.drop span.stop).takeWhile fun c => c == ' ' || c == '\t').length) :
        t[k]? = some ' ' ∨ t[k]? = some '\t' := by
      obtain ⟨ch, found, space⟩ := Text.getElem?_takeWhile (p := fun c => c == ' ' || c == '\t')
        (u := t.drop span.stop) (k := k - span.stop) (by omega)
      rw [List.getElem?_drop, show span.stop + (k - span.stop) = k from by omega] at found
      rw [found]
      simpa using space
    have short := (List.takeWhile_sublist (l := t.drop span.stop)
      fun c => c == ' ' || c == '\t').length_le
    rw [List.length_drop] at short
    refine ⟨Nat.le_refl _, Nat.le_add_right _ _, by simp only; omega, rfl, ?_, ?_, .inl rfl, ?_⟩
    · intro k ch le lt
      simp only at le
      omega
    · intro k ch le lt found
      rcases gap k le lt with space | tab
      · rw [space] at found
        cases found
        rfl
      · rw [tab] at found
        cases found
        rfl
    · intro k le lt found
      rcases gap k le lt with space | tab
      · rw [space] at found
        cases found
      · rw [tab] at found
        cases found

/-- The span begins and ends with a character that is not blank. -/
structure Span.Solid (t : Text) (span : Span) : Prop where
  forward : span.start < span.stop
  bound : span.stop ≤ t.length
  first : ∃ ch, t[span.start]? = some ch ∧ isBlank ch = false
  last : ∃ ch, t[span.stop - 1]? = some ch ∧ isBlank ch = false

/-- The edit is made for the span: it replaces just the span, or removes it. -/
def Edit.IsFor (t : Text) (span : Span) (edit : Edit) : Prop :=
  edit = t.removal span ∨ (edit.start = span.start ∧ edit.stop = span.stop)

section Solid

variable {t : Text} {span span' : Span} {edit edit' : Edit}

theorem Edit.IsFor.bounds (h : edit.IsFor t span) (solid : span.Solid t) :
    edit.start ≤ span.start ∧ span.stop ≤ edit.stop ∧ edit.stop ≤ t.length := by
  have := solid.bound
  rcases h with rfl | ⟨start, stop⟩
  · have spec := removal_spec solid.bound
    exact ⟨spec.start_le, spec.le_stop, spec.bound⟩
  · omega

/-- What is not blank behind a span is behind what is made of it. -/
theorem Edit.IsFor.stop_le (h : edit.IsFor t span) (solid : span.Solid t) {i : Nat} {ch : Char}
    (le : span.stop ≤ i) (found : t[i]? = some ch) (plain : isBlank ch = false) : edit.stop ≤ i := by
  rcases h with rfl | ⟨_, stop⟩
  · have spec := removal_spec solid.bound
    rcases Nat.lt_or_ge i (t.removal span).stop with lt | ge
    · rw [spec.after i ch le lt found] at plain
      cases plain
    · exact ge
  · omega

/-- What is not blank before a span is before what is made of it. -/
theorem Edit.IsFor.le_start (h : edit.IsFor t span) (solid : span.Solid t) {i : Nat} {ch : Char}
    (lt : i < span.start) (found : t[i]? = some ch) (plain : isBlank ch = false) : i < edit.start := by
  rcases h with rfl | ⟨start, _⟩
  · have spec := removal_spec solid.bound
    rcases Nat.lt_or_ge i (t.removal span).start with lt' | ge
    · exact lt'
    · rw [spec.before i ch ge lt found] at plain
      cases plain
  · omega

/-- **Edits made for spans that lie apart lie apart.** -/
theorem Edit.IsFor.ordered (h : edit.IsFor t span) (h' : edit'.IsFor t span')
    (solid : span.Solid t) (solid' : span'.Solid t) (apart : span.stop ≤ span'.start) :
    edit.stop ≤ edit'.start := by
  obtain ⟨first, hfirst, plainFirst⟩ := solid'.first
  obtain ⟨last, hlast, plainLast⟩ := solid.last
  have forward := solid.forward
  have stopLe := h.stop_le solid apart hfirst plainFirst
  have startLe := h'.le_start solid' (by omega) hlast plainLast
  rcases h' with rfl | ⟨start, _⟩
  · have spec' := removal_spec solid'.bound
    rcases spec'.line with same | zero | feed
    · omega
    · omega
    · -- the second removal starts behind a line feed, which is the last that the first can take
      rcases h with rfl | ⟨_, stop⟩
      · have spec := removal_spec solid.bound
        rcases Nat.lt_or_ge (t.removal span').start (t.removal span).stop with before | apart
        · have behind : span.stop ≤ (t.removal span').start - 1 := by
            rcases Nat.lt_or_ge ((t.removal span').start - 1) span.stop with lt | ge
            · rw [show (t.removal span').start - 1 = span.stop - 1 from by omega, hlast] at feed
              cases feed
              cases plainLast
            · exact ge
          have := spec.feed _ behind (by omega) feed
          omega
        · exact apart
      · omega
  · omega

end Solid

end EnumExtract
