/-
  EnumExtract.Proofs.LockstepScan
  ────────────────────────────────
  The scan for declarations in two texts that are read in lockstep.

  The two scans are kept in step by what they have found and by the modules
  they are in; both are the same but for offsets, and those are offsets of
  related places.  One step keeps the scans in step, and so does a run.

  Main results:
    • `Lockstep.scanStep`         a step of the scan is taken in both texts,
    • `Lockstep.run`              and so is a run, which finds the same,
    • `Lockstep.items_outcome`    both texts have the same outcome,
    • `eq_relocated_of_tracked`   what is found are the same declarations at other offsets.
-/
import EnumExtract.Proofs.Faults
import EnumExtract.Proofs.Lockstep

namespace EnumExtract

open Cursor

/-! ## §1. Scans in step. -/

/-- The modules have the same name and close at related places. -/
structure OpenModule.Tracked (R : Cursor → Cursor → Prop) (m m' : OpenModule) : Prop where
  name : m'.name = m.name
  close : Marks R m.close m'.close

/-- The two scans have found the same, the second one on top of `base`, and are in the same
modules. -/
structure Cursor.Scan.Tracked (R : Cursor → Cursor → Prop) (base : List Item) (s s' : Scan) : Prop where
  items : ∃ found, s'.items = found ++ base ∧ List.Forall₂ (Item.Tracked R) s.items found
  modules : List.Forall₂ (OpenModule.Tracked R) s.modules s'.modules

/-- The answer of the scan at the end of a text. -/
def Cursor.Scan.found (s : Scan) (_ : Cursor) : Except Fault (List Item) :=
  .ok s.items.reverse

theorem Text.items_ok_iff {t : Text} {items : List Item} :
    t.items = .ok items ↔ Walks scanStep Scan.found ⟨[], []⟩ (t.cursor 0) items :=
  walk_ok_iff scanStep_steady

theorem Cursor.Scan.Tracked.start {R : Cursor → Cursor → Prop} :
    Scan.Tracked R [] ⟨[], []⟩ ⟨[], []⟩ :=
  ⟨⟨[], rfl, .nil⟩, .nil⟩

theorem forall₂_dropWhile {α β : Type} {S : α → β → Prop} {p : α → Bool} {q : β → Bool}
    (same : ∀ a b, S a b → q b = p a) {xs : List α} {ys : List β} (h : List.Forall₂ S xs ys) :
    List.Forall₂ S (xs.dropWhile p) (ys.dropWhile q) := by
  induction h with
  | nil => exact .nil
  | @cons a b xs ys here rest ih =>
      rw [List.dropWhile_cons, List.dropWhile_cons, same a b here]
      split
      · exact ih
      · exact .cons here rest

theorem names_eq {R : Cursor → Cursor → Prop} {ms ms' : List OpenModule}
    (h : List.Forall₂ (OpenModule.Tracked R) ms ms') :
    ms'.reverse.map (·.name) = ms.reverse.map (·.name) := by
  rw [List.map_reverse, List.map_reverse]
  congr 1
  induction h with
  | nil => rfl
  | cons here _ ih => rw [List.map_cons, List.map_cons, here.name, ih]

namespace Lockstep

variable {t t' : Text} {R : Cursor → Cursor → Prop} {c c' : Cursor} {base : List Item}

/-- The keyword of a module leads to related places. -/
theorem afterMod (L : Lockstep t t' R) (h : R c c') (keyword : c.startsKeyword ["mod"] = true) :
    R (c.advance 3) (c'.advance 3) := by
  have found : ∃ after, c.identifier? = some (("mod" : Text), after) := by
    rw [Cursor.startsKeyword, Bool.and_eq_true, Option.any_eq_true] at keyword
    obtain ⟨_, w, hw, mem⟩ := keyword
    simp only [List.contains_eq_mem, List.mem_singleton, decide_eq_true_iff] at mem
    subst mem
    exact ⟨_, by rw [Cursor.identifier?, hw]; rfl⟩
  obtain ⟨after, hc⟩ := found
  obtain ⟨hw, rfl⟩ := identifier?_eq_some hc
  obtain ⟨rest, eq, _⟩ := Text.identifier?_some hw
  obtain ⟨after', hc', _, related⟩ := L.word h hc
  obtain ⟨_, rfl⟩ := identifier?_eq_some hc'
  exact (related (plainWord_of_isKeyword eq (by decide))).2

/-- The same module opens at related places, or none at either. -/
theorem openModule? (L : Lockstep t t' R) (h : R c c') (keyword : c.startsKeyword ["mod"] = true)
    {found : Option (OpenModule × Cursor)} (ho : c.openModule? = .ok found) :
    ∃ found', c'.openModule? = .ok found'
      ∧ Option.Rel (fun x x' => x.1.Tracked R x'.1 ∧ R x.2 x'.2 ∧ x.2.sees "\x7b" = true) found found' := by
  unfold Cursor.openModule? at ho ⊢
  obtain ⟨name, toName, ho⟩ := bind_ok_iff.mp ho
  obtain ⟨name', toName', atName⟩ := L.trivia (L.afterMod h keyword) (skipTrivia_ok_iff.mp toName)
  cases hw : name.identifier? with
  | none =>
      rw [hw] at ho
      cases ho
      refine ⟨none, bind_ok_iff.mpr ⟨name', skipTrivia_ok_iff.mpr toName', ?_⟩, .none⟩
      rw [L.identifier?_none atName hw]
      rfl
  | some found =>
      obtain ⟨w, after⟩ := found
      obtain ⟨after', hw', sameHead, related⟩ := L.word atName hw
      rw [hw] at ho
      simp only at ho
      obtain ⟨body, toBody, ho⟩ := bind_ok_iff.mp ho
      rw [skipTrivia_ok_iff] at toBody
      by_cases sees : body.sees "\x7b" = true
      · obtain ⟨_, atAfter⟩ := related (plainWord_of_brace hw toBody sees)
        obtain ⟨body', toBody', atBody⟩ := L.trivia atAfter toBody
        rw [if_pos sees] at ho
        obtain ⟨close, hclose, ho⟩ := bind_ok_iff.mp ho
        cases ho
        obtain ⟨close', hclose', atClose⟩ := L.closing atBody hclose
        have sees' : body'.sees "\x7b" = true := (L.sees_char atBody rfl (by decide)).trans sees
        refine ⟨some (⟨w, close'.offset⟩, body'), bind_ok_iff.mpr ⟨name', skipTrivia_ok_iff.mpr toName', ?_⟩,
          .some ⟨⟨rfl, .of atClose⟩, atBody, sees⟩⟩
        rw [hw']
        refine bind_ok_iff.mpr ⟨body', skipTrivia_ok_iff.mpr toBody', ?_⟩
        rw [if_pos sees', hclose']
        rfl
      · obtain ⟨body', toBody', reached⟩ := L.triviaBehind sameHead
          (fun stop rest eq outside => (related (plainWord_of_behind hw eq outside)).2) toBody
        have unseen : ¬ body'.sees "\x7b" = true := by
          rcases reached with atBody | none
          · exact fun sees' => sees ((L.sees_char atBody rfl (by decide)).symm.trans sees')
          · rw [Bool.not_eq_true]
            exact (none '\x7b' rfl).2
        rw [if_neg sees] at ho
        cases ho
        refine ⟨none, bind_ok_iff.mpr ⟨name', skipTrivia_ok_iff.mpr toName', ?_⟩, .none⟩
        rw [hw']
        refine bind_ok_iff.mpr ⟨body', skipTrivia_ok_iff.mpr toBody', ?_⟩
        rw [if_neg unseen]
        rfl

/-- The modules that are still open at related places. -/
theorem stillOpen (L : Lockstep t t' R) (h : R c c') {ms ms' : List OpenModule}
    (modules : List.Forall₂ (OpenModule.Tracked R) ms ms') :
    List.Forall₂ (OpenModule.Tracked R) (ms.dropWhile (·.close < c.offset))
      (ms'.dropWhile (·.close < c'.offset)) := by
  refine forall₂_dropWhile (fun m m' same => ?_) modules
  obtain ⟨d, d', related, here, there⟩ := same.close
  rw [← here, ← there, decide_eq_decide]
  exact (L.order related h).symm

/-- **A step of the scan is taken in both texts**, if names of declarations lead to related places.
So does the step; what cannot be passed is stepped over alone. -/
theorem scanStep {s s₁ s' : Scan} {n : Nat} (L : Lockstep t t' R) (K : KeepsAttributes R) (h : R c c')
    (more : c.ahead ≠ []) (tracked : s.Tracked R base s')
    (passes : c.mayStartItem = true → c.PassesNames R)
    (hs : Cursor.scanStep s c = .ok (.move s₁ n)) :
    ∃ s₁' n', Cursor.scanStep s' c' = .ok (.move s₁' n') ∧ s₁.Tracked R base s₁'
      ∧ (R (c.advance n) (c'.advance n')
        ∨ (¬ c.Passable ∧ c.lexeme? = .ok none ∧ n = 1 ∧ n' = 1)) := by
  obtain ⟨⟨found, itemsEq, items⟩, modules⟩ := tracked
  have left := L.stillOpen h modules
  unfold Cursor.scanStep at hs ⊢
  simp only at hs ⊢
  rw [L.startsKeyword h, L.mayStartItem h]
  split at hs
  next keyword =>
    rw [if_pos keyword]
    obtain ⟨opened, ho, hs⟩ := bind_ok_iff.mp hs
    obtain ⟨opened', ho', same⟩ := L.openModule? h keyword ho
    rw [ho']
    cases same with
    | none =>
        cases hs
        exact ⟨_, _, rfl, ⟨⟨found, itemsEq, items⟩, left⟩, .inl (L.afterMod h keyword)⟩
    | @some opened opened' same =>
        obtain ⟨inner, atBody, sees⟩ := same
        cases hs
        have brace := first_of_sees sees
        have le := (leadsTo_openModule keyword ho).1.offset_le
        refine ⟨_, _, rfl, ⟨⟨found, itemsEq, items⟩, .cons inner left⟩, .inl ?_⟩
        exact L.advance_to h (L.behind atBody brace rfl rfl (passable_of_first brace (by decide)))
          (Nat.le_succ_of_le le)
  next keyword =>
    rw [if_neg keyword]
    split at hs
    next starts =>
      rw [if_pos starts]
      obtain ⟨⟨item?, next⟩, hread, hs⟩ := bind_ok_iff.mp hs
      cases hs
      have head := readItem_ok_iff.mp hread
      obtain ⟨item?', next', head', there, same⟩ := L.headRead K h starts (passes starts) head
      rw [names_eq left, readItem_ok_iff.mpr head']
      refine ⟨_, _, rfl, ⟨⟨item?'.toList ++ found, ?_, ?_⟩, left⟩, .inl ?_⟩
      · show item?'.toList ++ s'.items = _
        rw [itemsEq, List.append_assoc]
      · exact List.rel_append same items
      · exact L.advance_to h there (Nat.le_of_lt (head.leadsTo more).2)
    next starts =>
      rw [if_neg starts]
      obtain ⟨length?, hl, hs⟩ := bind_ok_iff.mp hs
      cases hs
      rcases L.inStep h with both | ⟨n, n', skip, skip', there⟩
      swap
      · obtain ⟨m, hl', stepped'⟩ := exists_lexeme?_of_trivium skip'
        obtain ⟨_, hl'', stepped⟩ := exists_lexeme?_of_trivium skip
        rw [hl] at hl''
        cases hl''
        rw [← stepped, ← stepped'] at there
        rw [hl']
        exact ⟨_, _, rfl, ⟨⟨found, itemsEq, items⟩, left⟩, .inl there⟩
      cases length? with
      | some length =>
          obtain ⟨length', hl', there⟩ := both.lexeme length hl
          rw [hl']
          exact ⟨_, _, rfl, ⟨⟨found, itemsEq, items⟩, left⟩, .inl there⟩
      | none =>
          rw [both.noLexeme hl]
          refine ⟨_, _, rfl, ⟨⟨found, itemsEq, items⟩, left⟩, ?_⟩
          by_cases passable : c.Passable
          · exact .inl (both.next hl more passable)
          · exact .inr ⟨passable, hl, rfl, rfl⟩

/-- **A run of the scan goes on in both texts** up to the end of the first one or to a place `last`,
if all other places can be passed and an invariant of the places lets names lead to related places. -/
theorem trail {I : Cursor → Cursor → Prop} (last : Cursor → Prop) (L : Lockstep t t' R)
    (K : KeepsAttributes R)
    (onward : ∀ c c', R c c' → ¬ last c → ¬ c.Passable → c.lexeme? = .ok none → c.ahead ≠ [] →
      R (c.advance 1) (c'.advance 1))
    (passes : ∀ c c', R c c' → I c c' → c.mayStartItem = true → c.PassesNames R)
    (keep : ∀ (s s₁ s' s₁' : Scan) c c' n n', R c c' → I c c' → c.ahead ≠ [] →
      Cursor.scanStep s c = .ok (.move s₁ n) → Cursor.scanStep s' c' = .ok (.move s₁' n') →
      I (c.advance n) (c'.advance n'))
    {finish : Scan → Cursor → Except Fault (List Item)} {s : Scan} {items : List Item}
    (walks : Walks Cursor.scanStep finish s c items) :
    ∀ {s' : Scan} {c' : Cursor}, R c c' → I c c' → s.Tracked R base s' →
      ∃ s₁ c₁ s₁' c₁', R c₁ c₁' ∧ s₁.Tracked R base s₁' ∧ (c₁.ahead = [] ∨ last c₁)
        ∧ Walks Cursor.scanStep finish s₁ c₁ items
        ∧ ∀ found, Walks Cursor.scanStep finish s₁' c₁' found → Walks Cursor.scanStep finish s' c' found := by
  induction walks with
  | @finish s c items atEnd h =>
      intro s' c' related _ tracked
      exact ⟨s, c, s', c', related, tracked, .inl atEnd, .finish atEnd h, fun _ => id⟩
  | stop _ h => cases scanStep_spec h
  | @move s s₁ c n items h pos fits rest ih =>
      intro s' c' related inv tracked
      by_cases here : last c
      · exact ⟨s, c, s', c', related, tracked, .inr here, .move h pos fits rest, fun _ => id⟩
      have more : c.ahead ≠ [] := List.length_pos_iff.mp (by omega)
      obtain ⟨s₁', n', h', tracked', next⟩ := L.scanStep K related more tracked (passes c c' related inv) h
      have next : R (c.advance n) (c'.advance n') := by
        rcases next with next | ⟨stuck, noLexeme, rfl, rfl⟩
        · exact next
        · exact onward c c' related here stuck noLexeme more
      obtain ⟨s₂, c₂, s₂', c₂', related₂, tracked₂, ends, walks₂, back⟩ :=
        ih next (keep s s₁ s' s₁' c c' n n' related inv more h h') tracked'
      obtain ⟨pos', fits'⟩ := scanStep_steady s' c' s₁' n' (L.ahead_ne_nil related more) h'
      exact ⟨s₂, c₂, s₂', c₂', related₂, tracked₂, ends, walks₂,
        fun found walks => .move h' pos' fits' (back found walks)⟩

/-- **A run of the scan is a run in both texts**, if each place can be passed. -/
theorem run {I : Cursor → Cursor → Prop} (L : Lockstep t t' R) (K : KeepsAttributes R)
    (onward : ∀ c c', R c c' → ¬ c.Passable → c.lexeme? = .ok none → c.ahead ≠ [] →
      R (c.advance 1) (c'.advance 1))
    (passes : ∀ c c', R c c' → I c c' → c.mayStartItem = true → c.PassesNames R)
    (keep : ∀ (s s₁ s' s₁' : Scan) c c' n n', R c c' → I c c' → c.ahead ≠ [] →
      Cursor.scanStep s c = .ok (.move s₁ n) → Cursor.scanStep s' c' = .ok (.move s₁' n') →
      I (c.advance n) (c'.advance n'))
    {finish : Scan → Cursor → Except Fault (List Item)}
    (hfinish : ∀ s c, finish s c = .ok s.items.reverse) {s s' : Scan} {items : List Item}
    (walks : Walks Cursor.scanStep finish s c items) (related : R c c') (inv : I c c')
    (tracked : s.Tracked R base s') :
    ∃ found, Walks Cursor.scanStep finish s' c' (base.reverse ++ found)
      ∧ List.Forall₂ (Item.Tracked R) items found := by
  obtain ⟨s₁, c₁, s₁', c₁', related₁, ⟨⟨found, itemsEq, all⟩, _⟩, ends, walks₁, back⟩ :=
    L.trail (fun _ => False) K (fun c c' related _ => onward c c' related) passes keep walks related inv
      tracked
  have atEnd : c₁.ahead = [] := ends.resolve_right id
  have atEnd' := L.ahead_eq_nil related₁ atEnd
  have result := walks₁.walk_ok
  rw [walk_end atEnd, hfinish] at result
  cases result
  refine ⟨found.reverse, back _ (.finish atEnd' ?_), List.rel_reverse all⟩
  rw [hfinish, itemsEq, List.reverse_append]

/-- What the scan finds in the first text it finds in the second. -/
theorem items {items : List Item} (L : Lockstep t t' R) (K : KeepsAttributes R)
    (start : R (t.cursor 0) (t'.cursor 0))
    (onward : ∀ c c', R c c' → ¬ c.Passable → c.lexeme? = .ok none → c.ahead ≠ [] →
      R (c.advance 1) (c'.advance 1))
    (names : (t.cursor 0).NamesPlain) (h : t.items = .ok items) :
    ∃ items', t'.items = .ok items' ∧ List.Forall₂ (Item.Tracked R) items items' := by
  rw [Text.items_ok_iff] at h
  obtain ⟨found, walks, all⟩ := L.run (I := fun c _ => Exposed (t.cursor 0) c) K onward
    (fun c _ _ exposed starts => L.passesNames (names c exposed starts))
    (fun _ _ _ _ _ _ _ _ _ exposed more hs _ => names.step exposed more hs)
    (fun _ _ => rfl) h start (.start _) Scan.Tracked.start
  exact ⟨found, Text.items_ok_iff.mpr walks, all⟩

/-- **Two texts that are in lockstep both ways have the same outcome**: the same declarations, or
a fault of the same class. -/
theorem items_outcome (L : Lockstep t t' R) (L' : Lockstep t' t (flip R)) (K : KeepsAttributes R)
    (start : R (t.cursor 0) (t'.cursor 0))
    (onward : ∀ c c', R c c' → ¬ c.Passable → c.lexeme? = .ok none → c.ahead ≠ [] →
      R (c.advance 1) (c'.advance 1))
    (onward' : ∀ c c', R c c' → ¬ c'.Passable → c'.lexeme? = .ok none → c'.ahead ≠ [] →
      R (c.advance 1) (c'.advance 1))
    (names : (t.cursor 0).NamesPlain) :
    (∃ items items', t.items = .ok items ∧ t'.items = .ok items'
        ∧ List.Forall₂ (Item.Tracked R) items items')
      ∨ ∃ fault fault', t.items = .error fault ∧ t'.items = .error fault'
        ∧ fault'.cause.code = fault.cause.code := by
  cases h : t.items with
  | ok items =>
      obtain ⟨items', h', all⟩ := L.items K start onward names h
      exact .inl ⟨items, items', rfl, h', all⟩
  | error fault =>
      right
      cases h' : t'.items with
      | error fault' =>
          have misread := t.items_within
          have misread' := t'.items_within
          rw [h] at misread
          rw [h'] at misread'
          exact ⟨fault, fault', rfl, rfl, misread'.2.trans misread.2.symm⟩
      | ok items' =>
          -- what is found in the second text would be found in the first
          exfalso
          have run := Text.items_ok_iff.mp h'
          have K' := L.keepsAttributes_flip L' K
          obtain ⟨found, walks, _⟩ := L'.run (I := fun _ c => Exposed (t.cursor 0) c) K'
            (fun c' c related => onward' c c' related)
            (fun c' c related exposed starts => by
              have related : R c c' := related
              rw [L.mayStartItem related] at starts
              exact L'.passesNames (L.plainlyNamed L' K' related (names c exposed starts)))
            (fun _ _ _ _ _ _ _ _ related exposed more _ hs =>
              names.step exposed (L'.ahead_ne_nil related more) hs)
            (fun _ _ => rfl) run start (.start _) Scan.Tracked.start
          have there : t.items = .ok found := Text.items_ok_iff.mpr walks
          rw [h] at there
          cases there

end Lockstep

/-! ## §2. What is found. -/

/-- The attribute with its offsets changed. -/
def Attribute.relocated (f : Nat → Nat) (a : Attribute) : Attribute :=
  { a with start := f a.start, stop := f a.stop,
           args := a.args.map fun args => { args with start := f args.start } }

/-- The declaration with its offsets changed. -/
def Item.relocated (f : Nat → Nat) (item : Item) : Item :=
  { item with start := f item.start, bodyIndex := f item.bodyIndex,
              attrs := item.attrs.map (·.relocated f) }

section Relocated

variable {R : Cursor → Cursor → Prop} {f : Nat → Nat} (marks : ∀ i i', Marks R i i' → i' = f i)
include marks

theorem Attribute.Tracked.eq_relocated {a a' : Attribute} (h : a.Tracked R a') : a' = a.relocated f := by
  obtain ⟨path, text, start, stop, args⟩ := a
  obtain ⟨path', text', start', stop', args'⟩ := a'
  obtain ⟨samePath, sameText, atStart, atStop, applied⟩ := h
  simp only at samePath sameText atStart atStop applied
  have sameArgs : args' = args.map fun x => { x with start := f x.start } := by
    rcases applied with ⟨rfl, rfl⟩ | ⟨⟨text, start⟩, ⟨text', start'⟩, rfl, rfl, same, there, _⟩
    · rfl
    · simp only at same there
      rw [same, marks _ _ there]
      rfl
  rw [samePath, sameText, marks _ _ atStart, marks _ _ atStop, sameArgs]
  rfl

theorem Item.Tracked.eq_relocated {item item' : Item} (h : item.Tracked R item') :
    item' = item.relocated f := by
  obtain ⟨kind, name, attrs, visibility, start, bodyIndex, module⟩ := item
  obtain ⟨kind', name', attrs', visibility', start', bodyIndex', module'⟩ := item'
  obtain ⟨sameKind, sameName, sameVisibility, sameModule, all, atStart, atBody⟩ := h
  simp only at sameKind sameName sameVisibility sameModule all atStart atBody
  have sameAttrs : attrs' = attrs.map (·.relocated f) := by
    induction all with
    | nil => rfl
    | cons here _ ih => rw [List.map_cons, ← ih, here.eq_relocated marks]
  rw [sameKind, sameName, sameVisibility, sameModule, sameAttrs, marks _ _ atStart, marks _ _ atBody]
  rfl

theorem eq_relocated_of_tracked {items items' : List Item}
    (h : List.Forall₂ (Item.Tracked R) items items') : items' = items.map (·.relocated f) := by
  induction h with
  | nil => rfl
  | cons here _ ih => rw [List.map_cons, ← ih, here.eq_relocated marks]

end Relocated

end EnumExtract
