/-
  EnumExtract.Proofs.Relocation
  ────────────────────────────────
  A declaration at another place of another text.

  Two texts are read in lockstep, the second one `k` characters further on.  An
  enum of the first text then is one of the second, and what is read of it, its
  variants, its options and the change that it calls for, is the same but for
  the offsets, which are all moved by `k`.

  Main results:
    • `Piece.Twin.variant`         a variant at another place,
    • `Relocates.enum`             an enum at another place,
    • `ExtractOptions.ofAttributes_relocated`  its options,
    • `Relocates.ofItem?`          the change of a declaration,
    • `Relocates.edits`            the edits that make it.
-/
import EnumExtract.Proofs.Embedding
import EnumExtract.Proofs.Extraction
import EnumExtract.Proofs.Likeness
import EnumExtract.Proofs.LockstepScan
import EnumExtract.Proofs.Ownership

namespace EnumExtract

open Cursor

variable {source source' : Text} {e e' k : Nat} {o c c' : Cursor} {a a' : Attribute}
  {m : Int} {i j : Nat} {p p' : Piece}

/-! ## §1. Variants. -/

/-- The variant with its offsets changed. -/
def Variant.relocated (f : Nat → Nat) (v : Variant) : Variant :=
  { v with index := f v.index, directives := v.directives.map (·.relocated f) }

theorem Attribute.Twin.span (h : a.Twin e (e + k) c c' a') (nonempty : a.start < a.stop) :
    a'.span = a.span.relocated (· + k) := by
  have start := h.start
  have length := h.length
  unfold Attribute.span Span.relocated
  simp only [Span.mk.injEq]
  omega

/-- The directives among corresponding attributes stand at corresponding places. -/
theorem map_span_of_twins {attrs attrs' : List Attribute} (paths : List Text)
    (h : List.Forall₂ (Attribute.Twin e (e + k) c c') attrs attrs')
    (nonempty : ∀ a ∈ attrs, a.start < a.stop) :
    (attrs'.filter (paths.contains ·.path)).map (·.span)
      = ((attrs.filter (paths.contains ·.path)).map (·.span)).map (·.relocated (· + k)) := by
  induction h with
  | nil => rfl
  | cons here _ ih =>
      have tail := ih fun a mem => nonempty a (List.mem_cons_of_mem _ mem)
      rw [List.filter_cons, List.filter_cons, here.path]
      split
      · rw [List.map_cons, List.map_cons, List.map_cons, tail, here.span (nonempty _ List.mem_cons_self)]
      · exact tail

/-- **The same fields** are read at corresponding places of a piece. -/
theorem Cursor.Agree.readFields {place place' rest : Cursor} {fields : List Field}
    (h : Agree e e' place place') (twin : p.Twin e e' p') (sound : p.Sound o m i j) (lt : p.stop < e)
    (level : Level o place m) (read : Variant.readFields place p.stop = .ok (fields, rest)) :
    ∃ rest', Variant.readFields place' p'.stop = .ok (fields, rest') ∧ Agree e e' rest rest' := by
  have hplace := h.place
  have stop := twin.stop
  have sees (w : Text) (one : w.length = 1) (before : place.offset < p.stop) : place'.sees w = place.sees w :=
    h.sees (by omega)
  by_cases opens : place.offset < p.stop ∧ (place.sees "(" = true ∨ place.sees "\x7b" = true)
  · obtain ⟨before, opens⟩ := opens
    unfold Variant.readFields at read ⊢
    rw [if_pos (by simpa using ⟨before, opens⟩)] at read
    obtain ⟨close, hclose, read⟩ := bind_ok_iff.mp read
    obtain ⟨_, hfields, read⟩ := bind_ok_iff.mp read
    obtain ⟨_, toRest, read⟩ := bind_ok_iff.mp read
    cases read
    obtain ⟨code, encloses⟩ := closing_ok_iff.mp hclose
    have closeLt := sound.closing_lt level encloses before
    rw [sees "(" rfl before, sees "\x7b" rfl before, if_pos (by
      rw [Bool.and_eq_true, decide_eq_true_iff, Bool.or_eq_true]
      exact ⟨by omega, opens⟩)]
    obtain ⟨close', hclose', agreeClose⟩ := h.closing hclose (by omega)
    have closePlace := agreeClose.place
    have hfields' := h.fields encloses (by omega) (by omega) hfields
    have levelAfter := encloses.level_after level
    rw [skipTrivia_ok_iff] at toRest
    have bound := sound.trivia_le levelAfter toRest (by rw [advance_offset]; omega)
    obtain ⟨rest', agreeRest, toRest'⟩ := (agreeClose.advance (k := 1) (by omega)).trivia toRest (by omega)
    exact ⟨rest', bind_ok_iff.mpr ⟨_, hclose', bind_ok_iff.mpr ⟨_, hfields',
      bind_ok_iff.mpr ⟨_, skipTrivia_ok_iff.mpr toRest', rfl⟩⟩⟩, agreeRest⟩
  · have noFields : Variant.readFields place p.stop = .ok ([], place) := by
      refine Variant.readFields_eq_nil fun before => ?_
      simpa [before] using opens
    rw [noFields] at read
    cases read
    refine ⟨place', Variant.readFields_eq_nil fun before' => ?_, h⟩
    have before : place.offset < p.stop := by omega
    rw [sees "(" rfl before, sees "\x7b" rfl before]
    simpa [before] using opens

/-- **The variant of a piece is read at another place**, too. -/
theorem Piece.Twin.variant (twin : p.Twin e (e + k) p') (sound : p.Sound o m i j) (lt : p.stop < e)
    (onward : (source.cursor 0).LeadsTo p.start) (onward' : (source'.cursor 0).LeadsTo p'.start)
    {v : Variant} (hv : Variant.read source p = .ok v) :
    Variant.read source' p' = .ok (v.relocated (· + k))
      ∧ ∀ s ∈ v.directives, s.start ≤ e ∧ s.stop ≤ e := by
  obtain ⟨attrs, fields, ds, head, behind, place, rest, parts⟩ := Variant.read_ok_iff.mp hv
  have laid := parts.prelude.laid sound.level.near
  have headLe := sound.head_le parts.prelude
  have behindLe := sound.identifier_le laid.level.leadsTo parts.name headLe
  have levelBehind := laid.level.identifier parts.name (parts.plain sound)
  have placeLe := sound.trivia_le levelBehind parts.toFields behindLe
  have levelPlace := (parts.toFields.spec levelBehind.near).1
  have stop := twin.stop
  obtain ⟨attrs', head', prelude', agreeHead, twins⟩ := twin.start.prelude parts.prelude (by omega)
  obtain ⟨behind', name', agreeBehind⟩ := agreeHead.identifier? parts.name (by omega)
  obtain ⟨place', agreePlace, toFields'⟩ := agreeBehind.trivia parts.toFields (by omega)
  obtain ⟨rest', read', agreeRest⟩ := agreePlace.readFields twin sound lt levelPlace parts.read
  obtain ⟨ds', directives', like⟩ :=
    Variant.Directives.like_of_fold twins onward onward' ⟨rfl, rfl, rfl⟩ parts.directives
  have hhead := agreeHead.place
  have hrest := agreeRest.place
  have nonempty (a : Attribute) (mem : a ∈ attrs) : a.start < a.stop := by
    obtain ⟨_, placed⟩ := laid.placed a mem
    exact placed.nonempty
  have spans := parts.spans_eq
  constructor
  · have spans' : ds'.spans = v.directives.map (·.relocated (· + k)) := by
      rw [spans, Variant.Directives.spans_eq directives']
      exact map_span_of_twins _ twins nonempty
    refine Variant.read_ok_iff.mpr ⟨attrs', fields, ds', head', behind', place', rest', prelude', name',
      toFields', read', fun before' => ?_, directives', ?_, ?_, ?_, ?_, spans'.symm⟩
    · rw [agreeRest.sees (by show rest.offset + 1 ≤ e; omega)]
      exact parts.ends (by omega)
    · exact Variant.classify_ok _ parts.shape
    · exact parts.metadata.trans like.metadata.symm
    · exact parts.excluded.trans like.excluded.symm
    · show v.index + k = head'.offset
      rw [parts.index]
      omega
  · intro s mem
    rw [spans] at mem
    obtain ⟨a, listed, rfl⟩ := List.mem_map.mp mem
    obtain ⟨_, placed⟩ := laid.placed a (List.mem_filter.mp listed).1
    have := placed.nonempty
    have := placed.before
    show a.start ≤ e ∧ a.stop ≤ e
    omega

/-- The variants of corresponding pieces. -/
theorem Variant.readAll_relocated {ps ps' : List Piece} {vs : List Variant}
    (twins : List.Forall₂ (Piece.Twin e (e + k)) ps ps') (sound : ∀ p ∈ ps, p.Sound o m i j) (lt : j < e)
    (onward : ∀ p ∈ ps, (source.cursor 0).LeadsTo p.start)
    (onward' : ∀ p ∈ ps', (source'.cursor 0).LeadsTo p.start) (h : readAll source ps = .ok vs) :
    readAll source' ps' = .ok (vs.map (·.relocated (· + k)))
      ∧ ∀ v ∈ vs, ∀ s ∈ v.directives, s.start ≤ e ∧ s.stop ≤ e := by
  obtain ⟨each, distinct⟩ := readAll_ok_iff.mp h
  have all : List.Forall₂ (fun p v => read source' p = .ok v) ps' (vs.map (·.relocated (· + k)))
      ∧ ∀ v ∈ vs, ∀ s ∈ v.directives, s.start ≤ e ∧ s.stop ≤ e := by
    clear h distinct
    induction twins generalizing vs with
    | nil =>
        cases each
        exact ⟨.nil, nofun⟩
    | @cons p p' ps ps' twin _ ih =>
        cases each with
        | cons here each =>
            have bound := (sound p List.mem_cons_self).before
            obtain ⟨here', spans⟩ := twin.variant (sound p List.mem_cons_self) (by omega)
              (onward p List.mem_cons_self) (onward' p' List.mem_cons_self) here
            obtain ⟨each', all⟩ := ih (fun q mem => sound q (List.mem_cons_of_mem _ mem))
              (fun q mem => onward q (List.mem_cons_of_mem _ mem))
              (fun q mem => onward' q (List.mem_cons_of_mem _ mem)) each
            exact ⟨.cons here' each', List.forall_mem_cons.mpr ⟨spans, all⟩⟩
  refine ⟨readAll_ok_iff.mpr ⟨all.1, ?_⟩, all.2⟩
  rw [List.map_map]
  exact distinct

/-! ## §2. Attributes. -/

theorem Metadata.ofAttribute_relocated (f : Nat → Nat) (a : Attribute) :
    ofAttribute (a.relocated f) = ofAttribute a := by
  unfold ofAttribute Attribute.relocated
  cases a.args <;> rfl

theorem named_relocated (f : Nat → Nat) (path : Text) (attrs : List Attribute) :
    Attribute.named path (attrs.map (·.relocated f)) = (Attribute.named path attrs).map (·.relocated f) := by
  unfold Attribute.named
  rw [List.filter_map]
  rfl

/-- A derive is shortened within the text. -/
theorem Attribute.Shortens.le {t trait : Text} {edit : Edit} (h : a.Shortens t trait edit)
    (start : a.start ≤ t.length) (stop : a.stop ≤ t.length) :
    edit.start ≤ t.length ∧ edit.stop ≤ t.length := by
  obtain ⟨entry, _, rfl⟩ := h
  split
  · exact Text.removal_le start stop
  · exact ⟨start, stop⟩

section Embedding

variable {t t' : Text} (E : Embedded k e t t')
include E

/-- A derive is shortened in the same way in both texts. -/
theorem Embedded.withoutTrait? (within : a.start ≤ e ∧ a.stop ≤ e) (trait : Text) :
    (a.relocated (· + k)).withoutTrait? t' trait
      = (a.withoutTrait? t trait).map (Option.map (·.relocated (· + k))) := by
  unfold Attribute.withoutTrait?
  rw [Metadata.ofAttribute_relocated]
  cases Metadata.ofAttribute a with
  | error => rfl
  | ok entry =>
      have removal : t'.removal ⟨a.start + k, a.stop + k⟩ = (t.removal ⟨a.start, a.stop⟩).relocated (· + k) :=
        E.removal (show (Span.mk a.start a.stop).start ≤ e from within.1) within.2
      by_cases other : entry.category ≠ .derive
      · simp only [bind, Except.bind, if_pos other]
        rfl
      · simp only [bind, Except.bind, if_neg other]
        by_cases same : (entry.traits.filter (Text.lastSegment · ≠ trait)).length = entry.traits.length
        · simp only [if_pos same]
          rfl
        · simp only [if_neg same]
          by_cases none : (entry.traits.filter (Text.lastSegment · ≠ trait)).isEmpty = true
          · simp only [if_pos none]
            exact congrArg (fun edit => Except.ok (some edit)) removal
          · simp only [if_neg none]
            rfl

theorem Embedded.addAttribute (within : a.start ≤ e ∧ a.stop ≤ e) {kept kept' : List Metadata × List Edit}
    (h : EnumDecl.addAttribute t kept a = .ok kept') :
    EnumDecl.addAttribute t' (kept.1, kept.2.map (·.relocated (· + k))) (a.relocated (· + k))
      = .ok (kept'.1, kept'.2.map (·.relocated (· + k))) := by
  unfold EnumDecl.addAttribute at h ⊢
  rw [show (a.relocated (· + k)).path = a.path from rfl]
  split at h
  next directive =>
    cases h
    rw [if_pos directive]
    rfl
  next directive =>
    obtain ⟨edit?, hedit, h⟩ := bind_ok_iff.mp h
    rw [if_neg directive]
    refine bind_ok_iff.mpr ⟨edit?.map (·.relocated (· + k)), by rw [E.withoutTrait? within, hedit]; rfl, ?_⟩
    cases edit? with
    | some edit =>
        cases h
        rw [List.map_append]
        rfl
    | none =>
        obtain ⟨entry, hentry, h⟩ := bind_ok_iff.mp h
        cases h
        exact bind_ok_iff.mpr ⟨entry, (Metadata.ofAttribute_relocated _ a).trans hentry, rfl⟩

/-- The attributes of an enum come to the same, with the edits at other places. -/
theorem Embedded.foldlM_addAttribute {attrs : List Attribute} (within : ∀ a ∈ attrs, a.start ≤ e ∧ a.stop ≤ e) :
    ∀ {kept kept' : List Metadata × List Edit}, attrs.foldlM (EnumDecl.addAttribute t) kept = .ok kept' →
      (attrs.map (·.relocated (· + k))).foldlM (EnumDecl.addAttribute t')
          (kept.1, kept.2.map (·.relocated (· + k)))
        = .ok (kept'.1, kept'.2.map (·.relocated (· + k))) := by
  induction attrs with
  | nil =>
      intro kept kept' h
      cases h
      rfl
  | cons a attrs ih =>
      intro kept kept' h
      rw [List.foldlM_cons] at h
      obtain ⟨kept₁, hadd, h⟩ := bind_ok_iff.mp h
      rw [List.map_cons, List.foldlM_cons]
      exact bind_ok_iff.mpr ⟨_, E.addAttribute (within a List.mem_cons_self) hadd,
        ih (fun b mem => within b (List.mem_cons_of_mem _ mem)) h⟩

/-- **An enum is marked** in both texts or in neither. -/
theorem Embedded.isMarked {item : Item} (within : ∀ a ∈ item.attrs, a.start ≤ e ∧ a.stop ≤ e) :
    EnumDecl.isMarked t' (item.relocated (· + k)) = EnumDecl.isMarked t item := by
  unfold EnumDecl.isMarked
  rw [show (item.relocated (· + k)).kind = item.kind from rfl,
    show (item.relocated (· + k)).attrs = item.attrs.map (·.relocated (· + k)) from rfl]
  split
  next =>
    generalize item.attrs = attrs at within
    induction attrs with
    | nil => rfl
    | cons a attrs ih =>
        rw [List.map_cons, List.anyM_cons, List.anyM_cons,
          ih fun b mem => within b (List.mem_cons_of_mem _ mem), E.withoutTrait? (within a List.mem_cons_self),
          show (a.relocated (· + k)).path = a.path from rfl]
        congr 1
        split
        next => rfl
        next =>
          cases a.withoutTrait? t EnumDecl.marker with
          | error => rfl
          | ok edit? => cases edit? <;> rfl
  next => rfl

end Embedding

/-! ## §3. Options. -/

/-- A walk over the same text at another place comes to a like result, if like states are
kept by its steps. -/
theorem walk_of_same {σ ρ : Type} {S : σ → σ → Prop} {P : ρ → ρ → Prop}
    {step : σ → Cursor → Except Fault (Step σ ρ)} {finish : σ → Cursor → Except Fault ρ}
    (move : ∀ s s' c c' decision, S s s' → c'.ahead = c.ahead → step s c = .ok decision →
      ∃ decision', step s' c' = .ok decision' ∧ match decision, decision' with
        | .move s₁ n, .move s₁' n' => n' = n ∧ S s₁ s₁'
        | .stop r, .stop r' => P r r'
        | _, _ => False)
    (last : ∀ s s' c c' r, S s s' → finish s c = .ok r → ∃ r', finish s' c' = .ok r' ∧ P r r')
    {s s' : σ} {r : ρ} (like : S s s') (same : c'.ahead = c.ahead) (h : walk step finish s c = .ok r) :
    ∃ r', walk step finish s' c' = .ok r' ∧ P r r' := by
  obtain ⟨before, offset, ahead⟩ := c
  obtain ⟨before', offset', ahead'⟩ := c'
  simp only at same
  subst same
  have run : ∀ (t : Text) (claimed : Nat) (s s' : σ) (before before' : Option Char) (offset offset' : Nat),
      S s s' → walk.go step finish claimed s before offset t = .ok r →
        ∃ r', walk.go step finish claimed s' before' offset' t = .ok r' ∧ P r r' := by
    intro t
    induction t with
    | nil => exact fun _ s s' _ _ _ _ like h => last s s' _ _ r like h
    | cons ch rest ih =>
        intro claimed s s' before before' offset offset' like h
        cases claimed with
        | succ n => exact ih n s s' _ _ _ _ like h
        | zero =>
            rw [walk.go] at h ⊢
            cases decided : step s ⟨before, offset, ch :: rest⟩ with
            | error fault =>
                rw [decided] at h
                cases h
            | ok decision =>
                obtain ⟨decision', decided', both⟩ :=
                  move s s' ⟨before, offset, ch :: rest⟩ ⟨before', offset', ch :: rest⟩ decision like rfl decided
                rw [decided] at h
                rw [decided']
                cases decision <;> cases decision'
                · obtain ⟨rfl, like'⟩ := both
                  exact ih _ _ _ _ _ _ _ like' h
                · cases both
                · cases both
                · cases h
                  exact ⟨_, rfl, both⟩
  exact run ahead' 0 s s' before before' offset offset' like h

namespace WrittenOption

/-- The same option, perhaps at another place. -/
def Like (o o' : WrittenOption) : Prop :=
  o'.name = o.name ∧ o'.value = o.value

theorem at?_of_same {o : WrittenOption} {n : Nat} (same : c'.ahead = c.ahead) (h : at? c = some (o, n)) :
    ∃ o', at? c' = some (o', n) ∧ o.Like o' := by
  unfold at? at h ⊢
  rw [same]
  simp only at h ⊢
  split at h
  next => cases h
  next named =>
    cases h
    rw [if_neg named]
    exact ⟨_, rfl, rfl, rfl⟩

theorem readList_of_same {options : List WrittenOption} (same : c'.ahead = c.ahead)
    (h : readList c = .ok options) : ∃ options', readList c' = .ok options' ∧ List.Forall₂ Like options options' := by
  refine walk_of_same (S := List.Forall₂ Like) (P := List.Forall₂ Like) (fun s s' c c' decision like same h => ?_)
    (fun s s' c c' r like h => ?_) .nil same h
  · unfold readList.step at h ⊢
    rw [same]
    split at h
    next blank =>
      cases h
      rw [if_pos blank]
      exact ⟨_, rfl, List.rel_reverse like⟩
    next blank =>
      rw [if_neg blank]
      split at h
      next o n found =>
        cases h
        obtain ⟨o', found', here⟩ := at?_of_same same found
        rw [found']
        exact ⟨_, rfl, rfl, .cons here like⟩
      next => cases h
  · cases h
    exact ⟨_, rfl, List.rel_reverse like⟩

theorem ofAttribute_relocated {options : List WrittenOption} (f : Nat → Nat)
    (h : ofAttribute a = .ok options) :
    ∃ options', ofAttribute (a.relocated f) = .ok options' ∧ List.Forall₂ Like options options' := by
  obtain ⟨path, text, start, stop, args⟩ := a
  unfold ofAttribute Attribute.relocated at *
  simp only at h ⊢
  split at h
  next marker =>
    rw [if_pos marker]
    cases args with
    | none =>
        cases h
        exact ⟨[], rfl, .nil⟩
    | some args =>
        have same : (Cursor.mk (some '(') (f args.start) args.text).ahead
          = (Cursor.mk (some '(') args.start args.text).ahead := rfl
        exact readList_of_same same h
  next marker =>
    rw [if_neg marker]
    split at h
    next named =>
      cases h
      rw [if_pos named]
      refine ⟨_, rfl, .cons ⟨rfl, ?_⟩ .nil⟩
      cases args <;> rfl
    next named =>
      cases h
      rw [if_neg named]
      exact ⟨[], rfl, .nil⟩

theorem Like.nameValue {o o' : WrittenOption} {name : Text} (like : o.Like o') (h : o.nameValue = .ok name) :
    o'.nameValue = .ok name := by
  unfold WrittenOption.nameValue at h ⊢
  rw [like.2]
  cases trimmed : o.value.map Text.trim with
  | none =>
      rw [trimmed] at h
      cases h
  | some value =>
      rw [trimmed] at h
      simp only at h ⊢
      split at h
      next named =>
        rw [if_pos named]
        exact h
      next => cases h

end WrittenOption

namespace ExtractOptions

theorem Found.add_of_like {found found' : Found} {o o' : WrittenOption} (like : o.Like o')
    (h : found.add o = .ok found') : found.add o' = .ok found' := by
  unfold Found.add at h ⊢
  rw [like.1, like.2]
  simp only at h ⊢
  by_cases leading : o.name = "prefix"
  · rw [if_pos leading] at h ⊢
    by_cases twice : found.leading.isSome = true
    · rw [if_pos twice] at h
      cases h
    · rw [if_neg twice] at h ⊢
      obtain ⟨name, hname, h⟩ := bind_ok_iff.mp h
      exact bind_ok_iff.mpr ⟨name, like.nameValue hname, h⟩
  rw [if_neg leading] at h ⊢
  by_cases trailing : o.name = "suffix"
  · rw [if_pos trailing] at h ⊢
    by_cases twice : found.trailing.isSome = true
    · rw [if_pos twice] at h
      cases h
    · rw [if_neg twice] at h ⊢
      obtain ⟨name, hname, h⟩ := bind_ok_iff.mp h
      exact bind_ok_iff.mpr ⟨name, like.nameValue hname, h⟩
  rw [if_neg trailing] at h ⊢
  by_cases noImpl : o.name = "no_impl"
  · rw [if_pos noImpl] at h ⊢
    by_cases twice : found.noImpl = true
    · rw [if_pos twice] at h
      cases h
    · rw [if_neg twice] at h ⊢
      by_cases valued : o.value.isSome = true
      · rw [if_pos valued] at h
        cases h
      · rw [if_neg valued] at h ⊢
        exact h
  · rw [if_neg noImpl] at h
    cases h

theorem foldlM_add_of_like {options options' : List WrittenOption}
    (like : List.Forall₂ WrittenOption.Like options options') :
    ∀ {found found' : Found}, options.foldlM Found.add found = .ok found' →
      options'.foldlM Found.add found = .ok found' := by
  induction like with
  | nil => exact id
  | cons here _ ih =>
      intro found found' h
      rw [List.foldlM_cons] at h ⊢
      obtain ⟨found₁, hadd, h⟩ := bind_ok_iff.mp h
      exact bind_ok_iff.mpr ⟨found₁, Found.add_of_like here hadd, ih h⟩

/-- **The options are the same** at another place. -/
theorem ofAttributes_relocated {attrs : List Attribute} {options : ExtractOptions} (f : Nat → Nat)
    (h : ofAttributes attrs = .ok options) : ofAttributes (attrs.map (·.relocated f)) = .ok options := by
  have collected : ∀ {found found' : Found} (attrs : List Attribute),
      attrs.foldlM (fun found attr => do (← WrittenOption.ofAttribute attr).foldlM Found.add found) found
          = .ok found' →
        (attrs.map (·.relocated f)).foldlM
          (fun found attr => do (← WrittenOption.ofAttribute attr).foldlM Found.add found) found = .ok found' := by
    intro found found' attrs h
    induction attrs generalizing found with
    | nil => exact h
    | cons a attrs ih =>
        rw [List.map_cons, List.foldlM_cons]
        rw [List.foldlM_cons] at h
        obtain ⟨found₁, hadd, h⟩ := bind_ok_iff.mp h
        obtain ⟨written, hw, hadd⟩ := bind_ok_iff.mp hadd
        obtain ⟨written', hw', like⟩ := WrittenOption.ofAttribute_relocated f hw
        exact bind_ok_iff.mpr ⟨found₁, bind_ok_iff.mpr ⟨written', hw', foldlM_add_of_like like hadd⟩, ih h⟩
  unfold ofAttributes at h ⊢
  rw [named_relocated]
  cases named : Attribute.named EnumDecl.marker attrs with
  | nil =>
      rw [named] at h
      obtain ⟨found, hfound, h⟩ := bind_ok_iff.mp h
      exact bind_ok_iff.mpr ⟨found, collected attrs hfound, h⟩
  | cons first more =>
      rw [named] at h
      cases more with
      | nil =>
          obtain ⟨found, hfound, h⟩ := bind_ok_iff.mp h
          exact bind_ok_iff.mpr ⟨found, collected attrs hfound, h⟩
      | cons second more => cases h

end ExtractOptions

/-! ## §4. Changes. -/

/-- The enum with its offsets changed. -/
def EnumDecl.relocated (f : Nat → Nat) (enum : EnumDecl) : EnumDecl :=
  { enum with
    variants := enum.variants.map (·.relocated f)
    start := f enum.start
    stop := f enum.stop
    directives := enum.directives.map (·.relocated f)
    deriveEdits := enum.deriveEdits.map (·.relocated f) }

/-- The change with its offsets changed. -/
def Change.relocated (f : Nat → Nat) (change : Change) : Change :=
  { change with
    deriveEdits := change.deriveEdits.map (·.relocated f)
    directives := change.directives.map (·.relocated f)
    stop := f change.stop }

/-- All that a change does in `t` it does up to offset `e`, or else in the text at least. -/
structure Change.Within (e : Nat) (t : Text) (change : Change) : Prop where
  deriveEdits : ∀ edit ∈ change.deriveEdits, edit.start ≤ t.length ∧ edit.stop ≤ t.length
  directives : ∀ span ∈ change.directives, span.start ≤ e ∧ span.stop ≤ e
  stop : change.stop ≤ e

/-- The block of an enum does not depend on its place. -/
theorem Block.extractAll_relocated {enum : EnumDecl} {options : ExtractOptions} {block : Block} (f : Nat → Nat)
    (h : extractAll enum options = .ok block) : extractAll (enum.relocated f) options = .ok block := by
  obtain ⟨names, hnames, _⟩ := bind_ok_iff.mp h
  obtain ⟨eq, owns, distinct⟩ := GeneratedNames.ofEnum_ok hnames
  rw [extractAll, hnames] at h
  cases h
  have kept : (enum.relocated f).variants.filter (!·.excluded)
      = (enum.variants.filter (!·.excluded)).map (·.relocated f) := by
    rw [EnumDecl.relocated, List.filter_map]
    rfl
  have named : GeneratedNames.ofEnum (enum.relocated f) options = .ok names := by
    obtain ⟨pairs, _, ⟨⟩⟩ := bind_ok_iff.mp hnames
    refine bind_ok_iff.mpr ⟨pairs, ?_, rfl⟩
    show ((enum.relocated f).variants.filter (!·.excluded)).foldlM _ [] = _
    rw [kept]
    refine GeneratedNames.foldlM_add_ok_iff.mpr ⟨?_, ?_, fun _ _ => List.not_mem_nil, ?_⟩
    · rw [List.map_map]
      exact eq
    · intro v mem
      obtain ⟨w, listed, rfl⟩ := List.mem_map.mp mem
      exact owns w listed
    · rw [List.map_map]
      exact distinct
  rw [extractAll, named]
  have made : (enum.relocated f).variants.filterMap (extracted? (enum.relocated f) names)
      = enum.variants.filterMap (extracted? enum names) := by
    rw [EnumDecl.relocated, List.filterMap_map]
    rfl
  show Except.ok _ = Except.ok _
  simp only [made]
  rw [EnumDecl.relocated, List.filter_map, List.map_map]
  rfl

/-- The edits of a change are made at another place. -/
theorem Embedded.edits {t t' : Text} {change : Change} (E : Embedded k e t t') (within : change.Within e t) :
    (change.relocated (· + k)).edits t' = (change.edits t).map (·.relocated (· + k))
      ∧ ∀ edit ∈ change.edits t, edit.start ≤ t.length ∧ edit.stop ≤ t.length := by
  have bound := E.bound
  have stop := within.stop
  constructor
  · unfold Change.edits Change.relocated
    simp only
    rw [List.map_append, List.map_append, List.map_map, List.map_map]
    congr 2
    refine List.map_congr_left fun span mem => ?_
    have inside := within.directives span mem
    exact E.removal inside.1 inside.2
  · intro edit mem
    unfold Change.edits at mem
    rcases List.mem_append.mp mem with mem | mem
    · rcases List.mem_append.mp mem with mem | mem
      · exact within.deriveEdits edit mem
      · obtain ⟨span, listed, rfl⟩ := List.mem_map.mp mem
        have := within.directives span listed
        exact Text.removal_le (by omega) (by omega)
    · obtain rfl := List.mem_singleton.mp mem
      exact ⟨by show change.stop ≤ _; omega, by show change.stop ≤ _; omega⟩

/-- All edits are made at another place. -/
theorem Embedded.flatMap_edits {t t' : Text} {changes : List Change} (E : Embedded k e t t')
    (within : ∀ change ∈ changes, change.Within e t) :
    (changes.map (·.relocated (· + k))).flatMap (Change.edits t')
        = (changes.flatMap (Change.edits t)).map (·.relocated (· + k))
      ∧ ∀ edit ∈ changes.flatMap (Change.edits t), edit.start ≤ t.length ∧ edit.stop ≤ t.length := by
  induction changes with
  | nil => exact ⟨rfl, nofun⟩
  | cons change changes ih =>
      obtain ⟨rest, inside⟩ := ih fun other mem => within other (List.mem_cons_of_mem _ mem)
      obtain ⟨here, bounds⟩ := E.edits (within change List.mem_cons_self)
      rw [List.map_cons, List.flatMap_cons, List.flatMap_cons, List.map_append, here, rest]
      refine ⟨rfl, fun edit mem => ?_⟩
      rcases List.mem_append.mp mem with mem | mem
      · exact bounds edit mem
      · exact inside edit mem

/-! ## §5. Texts in lockstep. -/

/-- The text `t` is embedded in `t'` and read in lockstep with it, `k` characters further on; and up
to offset `e` the texts agree at related places. -/
structure Relocates (k e : Nat) (t t' : Text) (R : Cursor → Cursor → Prop) : Prop
    extends Embedded k e t t' where
  lockstep : Lockstep t t' R
  shift : ∀ {c c'}, R c c' → c'.offset = c.offset + k
  onward : ∀ {c c'}, R c c' → c.offset ≤ e ∧ (c.ahead ≠ [] → c.offset < e)
  agree : ∀ {c c'}, R c c' → 0 < c.offset → Agree e (e + k) c c'

namespace Relocates

variable {t t' : Text} {R : Cursor → Cursor → Prop} {item item' : Item} {change : Change}
  (P : Relocates k e t t' R)
include P

theorem marks {i i' : Nat} (h : Marks R i i') : i' = i + k ∧ i ≤ e := by
  obtain ⟨c, c', related, rfl, rfl⟩ := h
  exact ⟨P.shift related, (P.onward related).1⟩

theorem item_eq (h : item.Tracked R item') : item' = item.relocated (· + k) :=
  h.eq_relocated fun _ _ marked => (P.marks marked).1

theorem within (h : item.Tracked R item') : ∀ a ∈ item.attrs, a.start ≤ e ∧ a.stop ≤ e := by
  intro a mem
  obtain ⟨a', _, tracked⟩ := exists_of_forall₂_left h.attrs mem
  exact ⟨(P.marks tracked.start).2, (P.marks tracked.stop).2⟩

/-- Related places are places of the two texts. -/
theorem leadsTo (h : R c c') : (t.cursor 0).LeadsTo c ∧ (t'.cursor 0).LeadsTo c' := by
  have le := (P.onward h).1
  have bound := P.bound
  have shift := P.shift h
  obtain ⟨back, _, length, _⟩ := P.drop (Nat.le_refl e)
  rw [(P.lockstep.place h).1, (P.lockstep.place h).2]
  exact ⟨leadsTo_cursor (by omega), leadsTo_cursor (by omega)⟩

/-- The body of an enum is read at another place, with the same variants. -/
theorem body {enum : EnumDecl} {body close : Cursor} {pieces : List Piece} (h : item.Tracked R item')
    (parts : EnumDecl.Parts t item enum body close pieces) :
    ∃ body' close' pieces', Trivia false (t'.cursor item'.bodyIndex) body' ∧ body'.sees "\x7b" = true
      ∧ body'.closing = .ok close' ∧ (body'.advance 1).pieces close'.offset = .ok pieces'
      ∧ Variant.readAll t' pieces' = .ok (enum.variants.map (·.relocated (· + k)))
      ∧ close'.offset = close.offset + k ∧ close.offset < e
      ∧ ∀ v ∈ enum.variants, ∀ span ∈ v.directives, span.start ≤ e ∧ span.stop ≤ e := by
  have L := P.lockstep
  obtain ⟨x, x', atName, hx, hx'⟩ := h.bodyIndex
  have toBody := parts.toBody
  rw [← hx, ← (L.place atName).1] at toBody
  obtain ⟨body', toBody', atBody⟩ := L.trivia atName toBody
  rw [(L.place atName).2, hx'] at toBody'
  obtain ⟨close', closing', atClose⟩ := L.closing atBody parts.closing
  obtain ⟨code, encloses⟩ := closing_ok_iff.mp parts.closing
  obtain ⟨code', encloses'⟩ := closing_ok_iff.mp closing'
  obtain ⟨opener, closer, first, pair, last⟩ := encloses.closes
  have placeClose := P.shift atClose
  have lt : close.offset < e := by
    refine (P.onward atClose).2 fun none => ?_
    rw [none] at last
    cases last
  -- behind the brace the texts agree, so that the two bodies are cut into corresponding pieces
  have brace := first_of_sees parts.opens
  have inside := P.agree (L.behind atBody brace rfl rfl (passable_of_first brace (by decide)))
    (by rw [advance_offset]; omega)
  have level : Level body (body.advance 1) 1 := by
    have opens := ((Level.start body).bracket first (.inl (by rw [pair]; rfl))).next
    rwa [bracketWeight, pair] at opens
  obtain ⟨pieces', cut', twins⟩ := inside.pieces encloses.reads lt
    (show close'.offset + e = close.offset + (e + k) from by omega) level
    ((encloses.level_closer (.start body)).bracket last (.inr (isCloser_of_closer? pair).1))
    (isCloser_of_closer? pair).1 parts.cut
  obtain ⟨_, sound⟩ := encloses.pieces_sound (.start body) parts.cut
  obtain ⟨_, sound'⟩ := encloses'.pieces_sound (.start body') cut'
  obtain ⟨variants', spans⟩ := Variant.readAll_relocated twins sound lt
    (fun p mem => (P.leadsTo atBody).1.trans (sound p mem).level.leadsTo)
    (fun p mem => (P.leadsTo atBody).2.trans (sound' p mem).level.leadsTo) parts.variants
  exact ⟨body', close', pieces', toBody', (L.sees_char atBody rfl (by decide)).trans parts.opens, closing', cut',
    variants', placeClose, lt, spans⟩

/-- **An enum is read at another place**, too. -/
theorem enum {enum : EnumDecl} (h : item.Tracked R item') (read : EnumDecl.read t item = .ok enum) :
    EnumDecl.read t' item' = .ok (enum.relocated (· + k))
      ∧ (∀ span ∈ enum.directives, span.start ≤ e ∧ span.stop ≤ e) ∧ enum.stop ≤ e := by
  obtain ⟨body, close, pieces, parts⟩ := EnumDecl.read_ok_iff.mp read
  obtain ⟨body', close', pieces', toBody', opens', closing', cut', variants', placeClose, lt, spans⟩ :=
    P.body h parts
  have within := P.within h
  have attributes' := P.foldlM_addAttribute within parts.attributes
  refine ⟨EnumDecl.read_ok_iff.mpr ⟨body', close', pieces', toBody', opens', closing', cut', variants',
    ?_, ?_, ?_, ?_, ?_, ?_⟩, ?_, ?_⟩
  · rw [P.item_eq h]
    exact attributes'
  · exact parts.name.trans h.name.symm
  · exact parts.visibility.trans h.visibility.symm
  · rw [P.item_eq h]
    exact congrArg (· + k) parts.start
  · show enum.stop + k = _
    rw [parts.stop, placeClose]
    omega
  · show enum.directives.map (·.relocated (· + k)) = _
    rw [parts.directives, P.item_eq h, List.map_append, List.map_flatMap, List.map_map]
    show _ = ((item.attrs.map _).filter _).map _ ++ (enum.variants.map _).flatMap _
    rw [List.filter_map, List.map_map, List.flatMap_map]
    rfl
  · intro span mem
    rw [parts.directives] at mem
    rcases List.mem_append.mp mem with mem | mem
    · obtain ⟨a, listed, rfl⟩ := List.mem_map.mp mem
      exact within a (List.mem_filter.mp listed).1
    · obtain ⟨v, memv, mem⟩ := List.mem_flatMap.mp mem
      exact spans v memv span mem
  · rw [parts.stop]
    omega

/-- The change that an enum calls for is the same at another place. -/
theorem ofEnum (h : item.Tracked R item') (made : Change.ofEnum t item = .ok change) :
    Change.ofEnum t' item' = .ok (change.relocated (· + k)) ∧ change.Within e t := by
  obtain ⟨enum, henum, made⟩ := bind_ok_iff.mp made
  obtain ⟨options, hoptions, made⟩ := bind_ok_iff.mp made
  obtain ⟨block, hblock, made⟩ := bind_ok_iff.mp made
  cases made
  obtain ⟨henum', directives, stop⟩ := P.enum h henum
  have bound := P.bound
  have eq := P.item_eq h
  have options' : ExtractOptions.ofAttributes item'.attrs = .ok options := by
    rw [eq]
    exact ExtractOptions.ofAttributes_relocated _ hoptions
  have indent : t'.lineIndent item'.start = t.lineIndent item.start := by
    rw [eq]
    exact P.lineIndent (P.marks h.start).2
  refine ⟨bind_ok_iff.mpr ⟨_, henum', bind_ok_iff.mpr ⟨_, options', bind_ok_iff.mpr ⟨_,
    Block.extractAll_relocated _ hblock, ?_⟩⟩⟩, fun edit mem => ?_, directives, stop⟩
  · rw [indent]
    rfl
  · obtain ⟨body, close, pieces, parts⟩ := EnumDecl.read_ok_iff.mp henum
    obtain ⟨a, mema, shortens⟩ := exists_of_forall₂_right parts.deriveEdits_ok mem
    have := P.within h a (List.mem_filter.mp mema).1
    exact shortens.le (by omega) (by omega)

/-- **A declaration calls for the same change at another place**, if it is bound to no variant. -/
theorem ofItem? {own own' schema schema' : List EnumSource} {change? : Option Change}
    (h : item.Tracked R item') (unbound : ∀ a ∈ item.attrs, a.path ≠ StructDecl.directive)
    (made : Change.ofItem? t own schema item = .ok change?) :
    Change.ofItem? t' own' schema' item' = .ok (change?.map (·.relocated (· + k)))
      ∧ ∀ change ∈ change?, change.Within e t := by
  have made_eq := made
  obtain ⟨marked, hmarked, made⟩ := bind_ok_iff.mp made
  have hmarked' : EnumDecl.isMarked t' item' = .ok marked := by
    rw [P.item_eq h, P.isMarked (P.within h), hmarked]
  cases marked with
  | true =>
      obtain ⟨change, hchange, made⟩ := bind_ok_iff.mp made
      cases made
      obtain ⟨hchange', within⟩ := P.ofEnum h hchange
      refine ⟨bind_ok_iff.mpr ⟨true, hmarked', bind_ok_iff.mpr ⟨_, hchange', rfl⟩⟩, ?_⟩
      rintro _ ⟨⟩
      exact within
  | false =>
      have unbound' : ∀ a ∈ item'.attrs, a.path ≠ StructDecl.directive := by
        rw [P.item_eq h]
        intro a mem
        obtain ⟨b, listed, rfl⟩ := List.mem_map.mp mem
        exact unbound b listed
      have none := @Change.ofItem?_eq_none _ t own schema hmarked unbound
      rw [made_eq] at none
      cases none
      exact ⟨Change.ofItem?_eq_none hmarked' unbound', nofun⟩

/-- **All declarations call for the same changes at another place.** -/
theorem plan {own own' schema schema' : List EnumSource} {items items' : List Item} {changes : List Change}
    (h : List.Forall₂ (Item.Tracked R) items items')
    (unbound : ∀ item ∈ items, ∀ a ∈ item.attrs, a.path ≠ StructDecl.directive)
    (made : items.filterMapM (Change.ofItem? t own schema) = .ok changes) :
    items'.filterMapM (Change.ofItem? t' own' schema') = .ok (changes.map (·.relocated (· + k)))
      ∧ ∀ change ∈ changes, change.Within e t := by
  obtain ⟨found, each, rfl⟩ := filterMapM_ok_iff.mp made
  have both : List.Forall₂ (fun x y => Change.ofItem? t' own' schema' x = .ok y) items'
        (found.map (Option.map (·.relocated (· + k))))
      ∧ ∀ change? ∈ found, ∀ change ∈ change?, change.Within e t := by
    clear made
    induction h generalizing found with
    | nil =>
        cases each
        exact ⟨.nil, nofun⟩
    | cons here _ ih =>
        cases each with
        | cons hchange each =>
            obtain ⟨hchange', within⟩ := P.ofItem? here (unbound _ List.mem_cons_self) hchange
            obtain ⟨each', all⟩ := ih (fun item mem => unbound item (List.mem_cons_of_mem _ mem)) _ each
            exact ⟨.cons hchange' each', List.forall_mem_cons.mpr ⟨within, all⟩⟩
  refine ⟨filterMapM_ok_iff.mpr ⟨_, both.1, ?_⟩, fun change mem => ?_⟩
  · rw [List.filterMap_map, List.map_filterMap]
    rfl
  · obtain ⟨change?, mem, eq⟩ := List.mem_filterMap.mp mem
    exact both.2 change? mem change eq

end Relocates

end EnumExtract
