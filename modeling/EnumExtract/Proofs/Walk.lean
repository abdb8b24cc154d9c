/-
  EnumExtract.Proofs.Walk
  ────────────────────────────────
  Runs of the one loop of the readers, as a relation.

  `Walks step finish s c r` spells a run of `Cursor.walk` out move by move, so
  that facts about a reader are proved by induction on its run.  A step that
  is `Steady` moves forward and never past the end of the text; for such a
  step the loop and its runs agree:

      walk_ok_iff : walk step finish s c = .ok r ↔ Walks step finish s c r

  The other statements peel a computation that may fail: what a sequence of
  two has done, what a fold, a map and a filter over a list have done.  `Ends`
  says of such a computation what it gives and what it fails with; a fold, a
  map and a filter end with what each of their steps ends with.
-/
import EnumExtract.Source.Cursor
import Mathlib.Data.List.Forall2

namespace EnumExtract

/-! ## §1. Computations that succeed. -/

section Outcomes

variable {ε α β : Type}

theorem bind_ok_iff {x : Except ε α} {f : α → Except ε β} {b : β} :
    (x >>= f) = .ok b ↔ ∃ a, x = .ok a ∧ f a = .ok b := by
  cases x with
  | error e => simp [bind, Except.bind]
  | ok a => simp [bind, Except.bind]

theorem pure_ok_iff {a b : α} : (pure a : Except ε α) = .ok b ↔ a = b := by
  simp [pure, Except.pure]

/-- What the value of a computation is decided to be. -/
theorem exists_ok_of_decide {x : Except ε α} {p : α → Prop} [DecidablePred p]
    (h : (match x with | .ok a => decide (p a) | .error _ => false) = true) :
    ∃ a, x = .ok a ∧ p a := by
  split at h
  next a => exact ⟨a, rfl, of_decide_eq_true h⟩
  next => cases h

/-- A map that succeeds has succeeded at every element. -/
theorem mapM_ok_iff {f : α → Except ε β} {xs : List α} {ys : List β} :
    xs.mapM f = .ok ys ↔ List.Forall₂ (fun x y => f x = .ok y) xs ys := by
  induction xs generalizing ys with
  | nil =>
      rw [List.mapM_nil, pure_ok_iff]
      constructor
      · intro h
        subst h
        exact .nil
      · intro h
        cases h
        rfl
  | cons x xs ih =>
      rw [List.mapM_cons, bind_ok_iff]
      constructor
      · rintro ⟨y, hy, h⟩
        obtain ⟨zs, hzs, h⟩ := bind_ok_iff.mp h
        rw [pure_ok_iff] at h
        subst h
        exact .cons hy (ih.mp hzs)
      · intro h
        cases h with
        | cons hy hzs => exact ⟨_, hy, bind_ok_iff.mpr ⟨_, ih.mpr hzs, rfl⟩⟩

theorem mapM_congr {f g : α → Except ε β} {xs : List α} (same : ∀ x ∈ xs, f x = g x) :
    xs.mapM f = xs.mapM g := by
  induction xs with
  | nil => rfl
  | cons x xs ih =>
      obtain ⟨first, rest⟩ := List.forall_mem_cons.mp same
      rw [List.mapM_cons, List.mapM_cons, first, ih rest]

/-- One test after the other goes through if both do. -/
theorem then_ok_iff {x : Except ε Unit} {y : Except ε β} {b : β} :
    (x >>= fun _ => y) = .ok b ↔ x = .ok () ∧ y = .ok b := by
  rw [bind_ok_iff]
  exact ⟨fun ⟨_, first, rest⟩ => ⟨first, rest⟩, fun ⟨first, rest⟩ => ⟨(), first, rest⟩⟩

/-- A test of each element goes through if each test does. -/
theorem forM_ok_iff {f : α → Except ε Unit} {xs : List α} :
    xs.forM f = .ok () ↔ ∀ x ∈ xs, f x = .ok () := by
  induction xs with
  | nil => exact ⟨fun _ => nofun, fun _ => rfl⟩
  | cons x xs ih =>
      show (f x >>= fun _ => xs.forM f) = .ok () ↔ _
      rw [then_ok_iff, List.forall_mem_cons, ih]

/-- The answer of a test that may fail, `false` where it fails. -/
def holds (p : α → Except ε Bool) (x : α) : Bool :=
  match p x with
  | .ok b => b
  | .error _ => false

theorem holds_of_ok {p : α → Except ε Bool} {x : α} {b : Bool} (h : p x = .ok b) :
    holds p x = b := by
  rw [holds, h]

theorem filterAuxM_ok_iff {p : α → Except ε Bool} {xs acc ys : List α} :
    xs.filterAuxM p acc = .ok ys ↔
      (∀ x ∈ xs, p x = .ok (holds p x)) ∧ ys = (xs.filter (holds p)).reverse ++ acc := by
  induction xs generalizing acc with
  | nil =>
      rw [List.filterAuxM, pure_ok_iff]
      constructor
      · intro h
        exact ⟨nofun, h.symm⟩
      · rintro ⟨_, rfl⟩
        rfl
  | cons x xs ih =>
      rw [List.filterAuxM, bind_ok_iff, List.forall_mem_cons, List.filter_cons]
      constructor
      · rintro ⟨b, hb, h⟩
        obtain ⟨all, rfl⟩ := ih.mp h
        refine ⟨⟨by rw [holds_of_ok hb, hb], all⟩, ?_⟩
        rw [holds_of_ok hb]
        cases b <;> simp
      · rintro ⟨⟨hx, all⟩, rfl⟩
        refine ⟨holds p x, hx, ih.mpr ⟨all, ?_⟩⟩
        cases holds p x <;> simp

/-- A filter that succeeds has decided on every element. -/
theorem filterM_ok_iff {p : α → Except ε Bool} {xs ys : List α} :
    xs.filterM p = .ok ys ↔ (∀ x ∈ xs, p x = .ok (holds p x)) ∧ ys = xs.filter (holds p) := by
  rw [List.filterM, bind_ok_iff]
  constructor
  · rintro ⟨zs, hzs, h⟩
    obtain ⟨all, rfl⟩ := filterAuxM_ok_iff.mp hzs
    rw [pure_ok_iff] at h
    exact ⟨all, by rw [← h, List.append_nil, List.reverse_reverse]⟩
  · rintro ⟨all, rfl⟩
    refine ⟨_, filterAuxM_ok_iff.mpr ⟨all, rfl⟩, ?_⟩
    rw [pure_ok_iff, List.append_nil, List.reverse_reverse]

/-- A map that may drop elements and succeeds has succeeded at every element. -/
theorem filterMapM_ok_iff {f : α → Except ε (Option β)} {xs : List α} {ys : List β} :
    xs.filterMapM f = .ok ys ↔
      ∃ found : List (Option β), List.Forall₂ (fun x y => f x = .ok y) xs found
        ∧ ys = found.filterMap id := by
  induction xs generalizing ys with
  | nil =>
      rw [List.filterMapM_nil, pure_ok_iff]
      constructor
      · rintro rfl
        exact ⟨[], .nil, rfl⟩
      · rintro ⟨found, all, rfl⟩
        cases all
        rfl
  | cons x xs ih =>
      rw [List.filterMapM_cons, bind_ok_iff]
      constructor
      · rintro ⟨y, hy, h⟩
        cases y with
        | none =>
            obtain ⟨found, all, rfl⟩ := ih.mp h
            exact ⟨none :: found, .cons hy all, rfl⟩
        | some y =>
            obtain ⟨zs, hzs, h⟩ := bind_ok_iff.mp h
            obtain ⟨found, all, rfl⟩ := ih.mp hzs
            cases h
            exact ⟨some y :: found, .cons hy all, rfl⟩
      · rintro ⟨found, all, rfl⟩
        cases all with
        | @cons _ y _ found hy all =>
            refine ⟨y, hy, ?_⟩
            cases y with
            | none => exact ih.mpr ⟨found, all, rfl⟩
            | some y => exact bind_ok_iff.mpr ⟨_, ih.mpr ⟨found, all, rfl⟩, rfl⟩

theorem bind_error_iff {x : Except ε α} {f : α → Except ε β} {e : ε} :
    (x >>= f) = .error e ↔ x = .error e ∨ ∃ a, x = .ok a ∧ f a = .error e := by
  cases x with
  | ok a => exact ⟨fun h => .inr ⟨a, rfl, h⟩, fun h => h.elim nofun fun ⟨_, eq, h⟩ => by cases eq; exact h⟩
  | error e' => exact ⟨fun h => .inl (by cases h; rfl), fun h => h.elim (by rintro ⟨⟩; rfl) nofun⟩

/-- A map fails with the failure of the first element that has one. -/
theorem exists_of_mapM_error {f : α → Except ε β} {xs : List α} {e : ε} (h : xs.mapM f = .error e) :
    ∃ before x after, xs = before ++ x :: after ∧ (∀ y ∈ before, ∃ b, f y = .ok b)
      ∧ f x = .error e := by
  induction xs with
  | nil => cases h
  | cons x xs ih =>
      rw [List.mapM_cons] at h
      rcases bind_error_iff.mp h with first | ⟨b, first, h⟩
      · exact ⟨[], x, xs, rfl, nofun, first⟩
      · rcases bind_error_iff.mp h with more | ⟨bs, _, ⟨⟩⟩
        obtain ⟨before, y, after, rfl, all, met⟩ := ih more
        exact ⟨x :: before, y, after, rfl, List.forall_mem_cons.mpr ⟨⟨b, first⟩, all⟩, met⟩

/-- Of two related lists each element of the first has its partner in the second. -/
theorem exists_of_forall₂_left {R : α → β → Prop} {xs : List α} {ys : List β}
    (h : List.Forall₂ R xs ys) {x : α} (mem : x ∈ xs) : ∃ y, y ∈ ys ∧ R x y := by
  induction h with
  | nil => cases mem
  | cons here _ ih =>
      rcases List.mem_cons.mp mem with rfl | mem
      · exact ⟨_, List.mem_cons_self, here⟩
      · obtain ⟨y, memy, hy⟩ := ih mem
        exact ⟨y, List.mem_cons_of_mem _ memy, hy⟩

/-- Of two related lists each element of the second has its partner in the first. -/
theorem exists_of_forall₂_right {R : α → β → Prop} {xs : List α} {ys : List β}
    (h : List.Forall₂ R xs ys) {y : β} (mem : y ∈ ys) : ∃ x, x ∈ xs ∧ R x y :=
  exists_of_forall₂_left h.flip mem

/-- What holds of the pairs of a list holds of the pairs of a list related to it. -/
theorem pairwise_of_forall₂ {R : α → β → Prop} {S : α → α → Prop} {T : β → β → Prop}
    (spec : ∀ {x x' y y'}, R x y → R x' y' → S x x' → T y y') {xs : List α} {ys : List β}
    (h : List.Forall₂ R xs ys) (order : xs.Pairwise S) : ys.Pairwise T := by
  induction h with
  | nil => exact .nil
  | cons here rest ih =>
      obtain ⟨first, order⟩ := List.pairwise_cons.mp order
      refine List.pairwise_cons.mpr ⟨fun y' mem => ?_, ih order⟩
      obtain ⟨x', memx, hx'⟩ := exists_of_forall₂_right rest mem
      exact spec here hx' (first x' memx)

/-- Two elements of a list in order are the same, or one comes before the other. -/
theorem pairwise_cases {R : α → α → Prop} {xs : List α} (h : xs.Pairwise R) {a b : α}
    (ha : a ∈ xs) (hb : b ∈ xs) : a = b ∨ R a b ∨ R b a := by
  induction h with
  | nil => cases ha
  | cons first _ ih =>
      rcases List.mem_cons.mp ha with rfl | inTail
      · rcases List.mem_cons.mp hb with rfl | inTail
        · exact .inl rfl
        · exact .inr (.inl (first b inTail))
      · rcases List.mem_cons.mp hb with rfl | inTail'
        · exact .inr (.inr (first a inTail))
        · exact ih inTail inTail'

/-! ## §2. What computations end with. -/

/-- What the computation gives is `P`, and what it fails with is `E`. -/
def Ends (E : ε → Prop) (P : α → Prop) : Except ε α → Prop
  | .ok a => P a
  | .error e => E e

namespace Ends

variable {E : ε → Prop} {P : α → Prop} {Q : β → Prop} {x : Except ε α}

theorem imp {P' : α → Prop} (h : Ends E P x) (weaker : ∀ a, P a → P' a) : Ends E P' x := by
  cases x with
  | ok a => exact weaker a h
  | error e => exact h

/-- What is known of a computation that succeeds may be added. -/
theorem and_of_ok {P' : α → Prop} (h : Ends E P x) (known : ∀ a, x = .ok a → P' a) :
    Ends E (fun a => P a ∧ P' a) x := by
  cases x with
  | ok a => exact ⟨h, known a rfl⟩
  | error e => exact h

theorem bind {f : α → Except ε β} (h : Ends E P x) (next : ∀ a, P a → Ends E Q (f a)) :
    Ends E Q (x >>= f) := by
  cases x with
  | ok a => exact next a h
  | error e => exact h

theorem mapM {f : α → Except ε β} {xs : List α} (each : ∀ a ∈ xs, Ends E Q (f a)) :
    Ends E (fun ys => ∀ y ∈ ys, Q y) (xs.mapM f) := by
  induction xs with
  | nil => exact List.forall_mem_nil _
  | cons a xs ih =>
      obtain ⟨first, rest⟩ := List.forall_mem_cons.mp each
      rw [List.mapM_cons]
      exact first.bind fun b hb => (ih rest).bind fun bs hbs => List.forall_mem_cons.mpr ⟨hb, hbs⟩

theorem foldlM {f : β → α → Except ε β} {xs : List α} {b : β} (start : Q b)
    (each : ∀ b, Q b → ∀ a ∈ xs, Ends E Q (f b a)) : Ends E Q (xs.foldlM f b) := by
  induction xs generalizing b with
  | nil => exact start
  | cons a xs ih =>
      rw [List.foldlM_cons]
      refine (each b start a List.mem_cons_self).bind fun b' hb' => ih hb' ?_
      exact fun b hb a mem => each b hb a (List.mem_cons_of_mem _ mem)

theorem filterAuxM {p : α → Except ε Bool} {xs acc : List α} (known : ∀ a ∈ acc, P a)
    (all : ∀ a ∈ xs, P a) (each : ∀ a ∈ xs, Ends E (fun _ => True) (p a)) :
    Ends E (fun ys => ∀ y ∈ ys, P y) (xs.filterAuxM p acc) := by
  induction xs generalizing acc with
  | nil => exact known
  | cons a xs ih =>
      obtain ⟨first, rest⟩ := List.forall_mem_cons.mp each
      obtain ⟨ha, hxs⟩ := List.forall_mem_cons.mp all
      rw [List.filterAuxM]
      refine first.bind fun b _ => ih ?_ hxs rest
      cases b
      · exact known
      · exact List.forall_mem_cons.mpr ⟨ha, known⟩

theorem filterM {p : α → Except ε Bool} {xs : List α} (all : ∀ a ∈ xs, P a)
    (each : ∀ a ∈ xs, Ends E (fun _ => True) (p a)) :
    Ends E (fun ys => ∀ y ∈ ys, P y) (xs.filterM p) :=
  (filterAuxM (List.forall_mem_nil _) all each).bind fun _ known y mem => known y (List.mem_reverse.mp mem)

theorem anyM {p : α → Except ε Bool} {xs : List α}
    (each : ∀ a ∈ xs, Ends E (fun _ => True) (p a)) : Ends E (fun _ => True) (xs.anyM p) := by
  induction xs with
  | nil => trivial
  | cons a xs ih =>
      obtain ⟨first, rest⟩ := List.forall_mem_cons.mp each
      refine first.bind fun b _ => ?_
      cases b
      · exact ih rest
      · trivial

theorem filterMapM {f : α → Except ε (Option β)} {xs : List α}
    (each : ∀ a ∈ xs, Ends E (fun y => ∀ b ∈ y, Q b) (f a)) :
    Ends E (fun ys => ∀ y ∈ ys, Q y) (xs.filterMapM f) := by
  induction xs with
  | nil => exact List.forall_mem_nil _
  | cons a xs ih =>
      obtain ⟨first, rest⟩ := List.forall_mem_cons.mp each
      rw [List.filterMapM_cons]
      refine first.bind fun y hy => ?_
      cases y with
      | none => exact ih rest
      | some b => exact (ih rest).bind fun bs hbs => List.forall_mem_cons.mpr ⟨hy b rfl, hbs⟩

end Ends

end Outcomes

namespace Cursor

/-! ## §3. Places ahead of a cursor. -/

/-- `d` is a place of the text ahead of `c`. -/
def LeadsTo (c d : Cursor) : Prop :=
  ∃ k, k ≤ c.ahead.length ∧ d = c.advance k

@[simp] theorem advance_offset (c : Cursor) (k : Nat) : (c.advance k).offset = c.offset + k :=
  rfl

@[simp] theorem advance_ahead (c : Cursor) (k : Nat) : (c.advance k).ahead = c.ahead.drop k :=
  rfl

theorem LeadsTo.refl (c : Cursor) : c.LeadsTo c :=
  ⟨0, Nat.zero_le _, (advance_zero c).symm⟩

theorem leadsTo_advance {c : Cursor} {k : Nat} (h : k ≤ c.ahead.length) :
    c.LeadsTo (c.advance k) :=
  ⟨k, h, rfl⟩

theorem LeadsTo.trans {c d e : Cursor} (h : c.LeadsTo d) (h' : d.LeadsTo e) : c.LeadsTo e := by
  obtain ⟨j, hj, rfl⟩ := h
  obtain ⟨k, hk, rfl⟩ := h'
  rw [advance_ahead, List.length_drop] at hk
  exact ⟨j + k, by omega, advance_advance c j k⟩

theorem LeadsTo.offset_le {c d : Cursor} (h : c.LeadsTo d) : c.offset ≤ d.offset := by
  obtain ⟨k, _, rfl⟩ := h
  exact Nat.le_add_right _ _

/-- The end of the text is the same for every place of it. -/
theorem LeadsTo.end_eq {c d : Cursor} (h : c.LeadsTo d) :
    d.offset + d.ahead.length = c.offset + c.ahead.length := by
  obtain ⟨k, hk, rfl⟩ := h
  rw [advance_offset, advance_ahead, List.length_drop]
  omega

/-- A place is known by its offset. -/
theorem LeadsTo.eq_advance {c d : Cursor} (h : c.LeadsTo d) :
    d = c.advance (d.offset - c.offset) := by
  obtain ⟨k, _, rfl⟩ := h
  rw [advance_offset, Nat.add_sub_cancel_left]

theorem LeadsTo.eq_of_offset {c d e : Cursor} (h : c.LeadsTo d) (h' : c.LeadsTo e)
    (same : d.offset = e.offset) : d = e := by
  rw [h.eq_advance, h'.eq_advance, same]

/-- Of two places ahead of a cursor the later one is ahead of the earlier one. -/
theorem LeadsTo.of_le {c d e : Cursor} (h : c.LeadsTo d) (h' : c.LeadsTo e)
    (le : d.offset ≤ e.offset) : d.LeadsTo e := by
  obtain ⟨j, hj, rfl⟩ := h
  obtain ⟨k, hk, rfl⟩ := h'
  rw [advance_offset, advance_offset] at le
  refine ⟨k - j, ?_, ?_⟩
  · rw [advance_ahead, List.length_drop]
    omega
  · rw [advance_advance]
    congr 1
    omega

/-- The text between two places, in one piece. -/
theorem LeadsTo.ahead_eq {c d : Cursor} (h : c.LeadsTo d) :
    c.ahead = c.upTo d.offset ++ d.ahead := by
  obtain ⟨k, _, rfl⟩ := h
  rw [upTo, advance_offset, Nat.add_sub_cancel_left, advance_ahead, List.take_append_drop]

theorem LeadsTo.length_upTo {c d : Cursor} (h : c.LeadsTo d) :
    (c.upTo d.offset).length = d.offset - c.offset := by
  obtain ⟨k, hk, rfl⟩ := h
  rw [upTo, advance_offset, List.length_take]
  omega

/-- A place of a text is the cursor at its offset. -/
theorem cursor_of_leadsTo {t : Text} {c : Cursor} (h : (t.cursor 0).LeadsTo c) :
    c = t.cursor c.offset := by
  obtain ⟨k, _, rfl⟩ := h
  rw [advance_cursor]
  rfl

/-- Every place of a text lies ahead of its start. -/
theorem leadsTo_cursor {t : Text} {i : Nat} (le : i ≤ t.length) : (t.cursor 0).LeadsTo (t.cursor i) :=
  ⟨i, le, by rw [advance_cursor, Nat.zero_add]⟩

theorem offset_cursor (t : Text) (i : Nat) : (t.cursor i).offset = i :=
  rfl

theorem head?_cursor (t : Text) (i : Nat) : (t.cursor i).ahead.head? = t[i]? :=
  List.head?_drop

/-- The character at a place of a text. -/
theorem getElem?_of_head? {t : Text} {x : Cursor} {ch : Char} (onward : (t.cursor 0).LeadsTo x)
    (first : x.ahead.head? = some ch) : t[x.offset]? = some ch := by
  rw [← head?_cursor, ← cursor_of_leadsTo onward]
  exact first

theorem offset_le_length {t : Text} {x : Cursor} (onward : (t.cursor 0).LeadsTo x) :
    x.offset ≤ t.length := by
  have total := onward.end_eq
  have start : (t.cursor 0).offset + (t.cursor 0).ahead.length = t.length := by
    show 0 + (t.drop 0).length = t.length
    rw [List.drop_zero, Nat.zero_add]
  omega

/-- The text from a place of it on, up to an offset. -/
theorem slice_of_leadsTo {t : Text} {x : Cursor} (onward : (t.cursor 0).LeadsTo x) (stop : Nat) :
    t.slice x.offset stop = x.upTo stop := by
  conv_rhs => rw [cursor_of_leadsTo onward]
  rfl

/-! ## §4. Runs of a walk. -/

section Runs

variable {σ ρ : Type} (step : σ → Cursor → Except Fault (Step σ ρ))
  (finish : σ → Cursor → Except Fault ρ)

/-- A run of a walk: from a state at a cursor to its result. -/
inductive Walks : σ → Cursor → ρ → Prop where
  /-- The text is at its end. -/
  | finish {s : σ} {c : Cursor} {r : ρ} (atEnd : c.ahead = []) (h : finish s c = .ok r) :
      Walks s c r
  /-- The step ends the walk. -/
  | stop {s : σ} {c : Cursor} {r : ρ} (more : c.ahead ≠ []) (h : step s c = .ok (.stop r)) :
      Walks s c r
  /-- The step goes on. -/
  | move {s s' : σ} {c : Cursor} {n : Nat} {r : ρ} (h : step s c = .ok (.move s' n))
      (pos : 0 < n) (fits : n ≤ c.ahead.length) (rest : Walks s' (c.advance n) r) : Walks s c r

/-- A walk from a state at a cursor comes to another state at another cursor. -/
inductive WalksTo : σ → Cursor → σ → Cursor → Prop where
  | here (s : σ) (c : Cursor) : WalksTo s c s c
  | move {s s' s'' : σ} {c d : Cursor} {n : Nat} (more : c.ahead ≠ [])
      (h : step s c = .ok (.move s' n)) (rest : WalksTo s' (c.advance n) s'' d) :
      WalksTo s c s'' d

/-- The step goes forward, and not past the end of the text. -/
def Steady : Prop :=
  ∀ (s : σ) (c : Cursor) (s' : σ) (n : Nat), c.ahead ≠ [] → step s c = .ok (.move s' n) →
    0 < n ∧ n ≤ c.ahead.length

variable {step finish}

theorem Walks.of_walk (steady : Steady step) {r : ρ} :
    ∀ (k : Nat) (s : σ) (c : Cursor), c.ahead.length ≤ k → walk step finish s c = .ok r →
      Walks step finish s c r := by
  intro k
  induction k with
  | zero =>
      intro s c short h
      have atEnd : c.ahead = [] := List.length_eq_zero_iff.mp (by omega)
      rw [walk_end atEnd] at h
      exact .finish atEnd h
  | succ k ih =>
      intro s c short h
      by_cases atEnd : c.ahead = []
      · rw [walk_end atEnd] at h
        exact .finish atEnd h
      · cases hs : step s c with
        | error fault =>
            rw [walk_error atEnd hs] at h
            cases h
        | ok next =>
            cases next with
            | stop result =>
                rw [walk_stop atEnd hs] at h
                cases h
                exact .stop atEnd hs
            | move s' n =>
                obtain ⟨pos, fits⟩ := steady s c s' n atEnd hs
                rw [walk_move hs pos fits] at h
                refine .move hs pos fits (ih s' (c.advance n) ?_ h)
                rw [advance_ahead, List.length_drop]
                omega

theorem Walks.walk_ok {s : σ} {c : Cursor} {r : ρ} (h : Walks step finish s c r) :
    walk step finish s c = .ok r := by
  induction h with
  | finish atEnd h => rw [walk_end atEnd, h]
  | stop more h => rw [walk_stop more h]
  | move h pos fits _ ih => rw [walk_move h pos fits, ih]

/-- **The loop and its runs agree.** -/
theorem walk_ok_iff (steady : Steady step) {s : σ} {c : Cursor} {r : ρ} :
    walk step finish s c = .ok r ↔ Walks step finish s c r :=
  ⟨Walks.of_walk steady _ s c (Nat.le_refl _), Walks.walk_ok⟩

/-- What the steps of a run keep is known of its result. -/
theorem Walks.kept {I : σ → Cursor → Prop} {P : ρ → Prop} {s : σ} {c : Cursor} {r : ρ}
    (h : Walks step finish s c r) (start : I s c)
    (move : ∀ s c s' n, c.ahead ≠ [] → I s c → step s c = .ok (.move s' n) → I s' (c.advance n))
    (stop : ∀ s c r, c.ahead ≠ [] → I s c → step s c = .ok (.stop r) → P r)
    (last : ∀ s c r, I s c → finish s c = .ok r → P r) : P r := by
  induction h with
  | finish _ h => exact last _ _ _ start h
  | stop more h => exact stop _ _ _ more start h
  | move h _ fits _ ih => exact ih (move _ _ _ _ (List.length_pos_iff.mp (by omega)) start h)

/-- A walk whose every step goes through, as long as an invariant of state and place is kept,
comes to a result. -/
theorem exists_walk (steady : Steady step) {I : σ → Cursor → Prop} {P : ρ → Prop}
    (next : ∀ s c, c.ahead ≠ [] → I s c → (∃ r, step s c = .ok (.stop r) ∧ P r)
      ∨ ∃ s' n, step s c = .ok (.move s' n) ∧ I s' (c.advance n))
    (last : ∀ s c, c.ahead = [] → I s c → ∃ r, finish s c = .ok r ∧ P r) {s : σ} {c : Cursor}
    (h : I s c) : ∃ r, walk step finish s c = .ok r ∧ P r := by
  induction length : c.ahead.length using Nat.strongRecOn generalizing s c with
  | ind k ih =>
      subst length
      by_cases atEnd : c.ahead = []
      · rw [walk_end atEnd]
        exact last s c atEnd h
      · rcases next s c atEnd h with ⟨r, stops, hr⟩ | ⟨s', n, moves, kept⟩
        · exact ⟨r, walk_stop atEnd stops, hr⟩
        · obtain ⟨pos, fits⟩ := steady s c s' n atEnd moves
          rw [walk_move moves pos fits]
          refine ih _ ?_ kept rfl
          rw [advance_ahead, List.length_drop]
          omega

/-- A walk whose steps keep an invariant of the state, at places that have a property which passes on
from character to character: what its last step or its closing function does is what the walk
does. -/
theorem walk_ends {E : Fault → Prop} {I : σ → Prop} {J : Cursor → Prop} {P : ρ → Prop} {s : σ}
    {c : Cursor}
    (next : ∀ before offset ch rest, J ⟨before, offset, ch :: rest⟩ → J ⟨some ch, offset + 1, rest⟩)
    (place : J c) (start : I s)
    (move : ∀ s c, I s → J c → c.ahead ≠ [] →
      Ends E (fun decided => match decided with | .move s' _ => I s' | .stop r => P r) (step s c))
    (last : ∀ s c, I s → J c → Ends E P (finish s c)) : Ends E P (walk step finish s c) := by
  obtain ⟨before, offset, ahead⟩ := c
  have run : ∀ (t : Text) (claimed : Nat) (s : σ) (before : Option Char) (offset : Nat), I s →
      J ⟨before, offset, t⟩ → Ends E P (walk.go step finish claimed s before offset t) := by
    intro t
    induction t with
    | nil => exact fun _ s before offset hs here => last s ⟨before, offset, []⟩ hs here
    | cons ch rest ih =>
        intro claimed s before offset hs here
        cases claimed with
        | succ k => exact ih k s (some ch) (offset + 1) hs (next _ _ _ _ here)
        | zero =>
            have done := move s ⟨before, offset, ch :: rest⟩ hs here (List.cons_ne_nil _ _)
            rw [walk.go]
            cases decided : step s ⟨before, offset, ch :: rest⟩ with
            | error fault =>
                rw [decided] at done
                exact done
            | ok decision =>
                rw [decided] at done
                cases decision with
                | stop r => exact done
                | move s' k => exact ih (k - 1) s' (some ch) (offset + 1) done (next _ _ _ _ here)
  exact run ahead 0 s before offset start place

end Runs

end Cursor

end EnumExtract
