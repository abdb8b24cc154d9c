/-
  EnumExtract.Proofs.Ownership
  ────────────────────────────────
  Which declarations are annotated, and which of the attributes written with
  them belong to the generator.

  `Item.isAnnotated`, `Item.ownAttributes` and `Item.markedDerives` say it from
  the attributes alone, without the changes that are made of them.

  Main results:
    • `withoutTrait?_ok`       a derive is shortened just where it names the trait,
    • `isMarked_ok`            a marked enum is an annotated one,
    • `Parts.deriveEdits_ok`   the edits of an enum's derives,
    • `Parts.preludes`         the directives on its variants.
-/
import EnumExtract.Proofs.Declarations
import EnumExtract.Transform

namespace EnumExtract

open Cursor

/-! ## §1. Derives. -/

/-- The attribute is a derive that names the trait, alone or at the end of a path. -/
def Attribute.derives (trait : Text) (attr : Attribute) : Bool :=
  match Metadata.ofAttribute attr with
  | .ok entry => entry.category = .derive && entry.traits.any (Text.lastSegment · = trait)
  | .error _ => false

/-- The edit takes the trait out of the derive: what is left of it is written in its place, and
a derive of nothing else is removed. -/
def Attribute.Shortens (source trait : Text) (attr : Attribute) (edit : Edit) : Prop :=
  ∃ entry, Metadata.ofAttribute attr = .ok entry ∧
    let rest := entry.traits.filter (Text.lastSegment · ≠ trait)
    edit = if rest.isEmpty then source.removal attr.span
      else ⟨attr.start, attr.stop, (Metadata.derive rest).text⟩

namespace Attribute

variable {source trait : Text} {attr : Attribute}

/-- **A derive is shortened just where it names the trait.** -/
theorem withoutTrait?_ok {edit? : Option Edit} (h : attr.withoutTrait? source trait = .ok edit?) :
    (attr.derives trait = false ∧ edit? = none)
      ∨ (attr.derives trait = true ∧ ∃ edit, edit? = some edit ∧ attr.Shortens source trait edit) := by
  rw [withoutTrait?] at h
  obtain ⟨entry, hentry, h⟩ := bind_ok_iff.mp h
  rw [derives, hentry]
  simp only at h ⊢
  split at h
  next other =>
    cases h
    exact .inl ⟨by simp [other], rfl⟩
  next derive =>
    rw [Decidable.not_not] at derive
    split at h
    next same =>
      cases h
      refine .inl ⟨?_, rfl⟩
      rw [List.length_filter_eq_length_iff] at same
      rw [Bool.and_eq_false_iff, List.any_eq_false]
      exact .inr fun t mem => by simpa using same t mem
    next fewer =>
      have named : entry.traits.any (fun t => decide (Text.lastSegment t = trait)) = true := by
        rw [List.length_filter_eq_length_iff] at fewer
        rw [List.any_eq_true]
        obtain ⟨t, mem, other⟩ := not_forall₂.mp fewer
        exact ⟨t, mem, by simpa using other⟩
      refine .inr ⟨by rw [named, derive]; rfl, ?_⟩
      split at h
      next none =>
        cases h
        exact ⟨_, rfl, entry, hentry, (if_pos none).symm⟩
      next some =>
        cases h
        exact ⟨_, rfl, entry, hentry, (if_neg some).symm⟩

theorem path_of_derives (h : attr.derives trait = true) : attr.path = "derive" := by
  rw [derives] at h
  split at h
  next entry hentry =>
    rw [Bool.and_eq_true, decide_eq_true_iff] at h
    rw [Metadata.ofAttribute] at hentry
    split at hentry
    next =>
      cases hentry
      cases h.1
    next =>
      split at hentry
      next =>
        split at hentry
        next path => exact path
        next =>
          cases hentry
          cases h.1
      next =>
        cases hentry
        cases h.1
  next => cases h

/-- The derives of a list of attributes that name the trait are shortened, one by one. -/
theorem filterMapM_withoutTrait? {attrs : List Attribute} {edits : List Edit}
    (h : attrs.filterMapM (·.withoutTrait? source trait) = .ok edits) :
    List.Forall₂ (Shortens source trait) (attrs.filter (·.derives trait)) edits := by
  obtain ⟨found, all, rfl⟩ := filterMapM_ok_iff.mp h
  clear h
  induction all with
  | nil => exact .nil
  | @cons attr edit? attrs found hattr _ ih =>
      rcases withoutTrait?_ok hattr with ⟨other, rfl⟩ | ⟨named, edit, rfl, shortens⟩
      · rw [List.filter_cons, other]
        exact ih
      · rw [List.filter_cons, named]
        exact .cons shortens ih

end Attribute

/-! ## §2. Annotated declarations. -/

namespace Item

/-- The trait that marks a declaration, taken out of its derives. -/
def markerTrait (item : Item) : Text :=
  match item.kind with
  | .enum => EnumDecl.marker
  | .struct => Change.bindTrait

/-- The declaration is annotated: an enum by the marker as an attribute or a derive, a struct
by the directive that binds it. -/
def isAnnotated (item : Item) : Bool :=
  match item.kind with
  | .enum => item.attrs.any fun attr => attr.path = EnumDecl.marker || attr.derives EnumDecl.marker
  | .struct => item.attrs.any (·.path = StructDecl.directive)

/-- The derives of the declaration that name its marker. -/
def markedDerives (item : Item) : List Attribute :=
  item.attrs.filter (·.derives item.markerTrait)

/-- The attributes on the declaration itself that are directives. -/
def ownAttributes (item : Item) : List Attribute :=
  match item.kind with
  | .enum => item.attrs.filter (EnumDecl.directivePaths.contains ·.path)
  | .struct => Attribute.named StructDecl.directive item.attrs

/-- The attributes and doc comments of the variants of an enum, in order. -/
def variantAttributes (source : Text) (item : Item) : Except Fault (List Attribute) := do
  let body ← (source.cursor item.bodyIndex).skipTrivia
  let close ← body.closing
  let preludes ← (← (body.advance 1).pieces close.offset).mapM (·.start.readPrelude)
  return preludes.flatMap (·.1)

/-- All directives written with the declaration: those on it, and those on the variants of an
enum. -/
def directives (source : Text) (item : Item) : Except Fault (List Attribute) :=
  match item.kind with
  | .enum => do
      let inner ← item.variantAttributes source
      return item.ownAttributes ++ inner.filter (Variant.directivePaths.contains ·.path)
  | .struct => return item.ownAttributes

end Item

theorem anyM_ok {α ε : Type} {p : α → Except ε Bool} {q : α → Bool} {xs : List α} {b : Bool}
    (spec : ∀ x b, p x = .ok b → b = q x) (h : xs.anyM p = .ok b) : b = xs.any q := by
  induction xs with
  | nil =>
      rw [List.anyM_nil, pure_ok_iff] at h
      rw [← h, List.any_nil]
  | cons x xs ih =>
      rw [List.anyM_cons, bind_ok_iff] at h
      obtain ⟨b', hb', h⟩ := h
      rw [List.any_cons, ← spec x b' hb']
      cases b' with
      | true =>
          cases h
          rfl
      | false => exact ih h

/-- **A marked enum is an annotated one.** -/
theorem EnumDecl.isMarked_ok {source : Text} {item : Item} {b : Bool}
    (h : isMarked source item = .ok b) :
    b = (decide (item.kind = .enum) && item.isAnnotated) := by
  rw [isMarked] at h
  split at h
  next enum =>
    rw [Item.isAnnotated, enum]
    refine anyM_ok (fun attr b h => ?_) h
    split at h
    next path =>
      cases h
      simp [path]
    next path =>
      obtain ⟨edit?, hedit, h⟩ := bind_ok_iff.mp h
      rw [pure_ok_iff] at h
      rcases Attribute.withoutTrait?_ok hedit with ⟨other, rfl⟩ | ⟨named, edit, rfl, _⟩
      · simp [← h, path, other]
      · simp [← h, named]
  next struct =>
    cases h
    simp [struct]

/-! ## §3. The directives of an enum. -/

namespace EnumDecl

variable {source : Text} {item : Item} {enum : EnumDecl} {body close : Cursor} {pieces : List Piece}

theorem not_derives_of_directive {attr : Attribute} (h : directivePaths.contains attr.path = true) :
    attr.derives marker = false := by
  cases hd : attr.derives marker with
  | false => rfl
  | true =>
      rw [Attribute.path_of_derives hd] at h
      cases h

theorem foldlM_addAttribute {attrs : List Attribute} : ∀ {kept kept' : List Metadata × List Edit},
    attrs.foldlM (addAttribute source) kept = .ok kept' →
      ∃ edits, kept'.2 = kept.2 ++ edits
        ∧ List.Forall₂ (Attribute.Shortens source marker) (attrs.filter (·.derives marker)) edits := by
  induction attrs with
  | nil =>
      intro kept kept' h
      cases h
      exact ⟨[], (List.append_nil _).symm, .nil⟩
  | cons attr attrs ih =>
      intro kept kept' h
      rw [List.foldlM_cons] at h
      obtain ⟨kept₁, hadd, h⟩ := bind_ok_iff.mp h
      obtain ⟨edits, eq, all⟩ := ih h
      rw [addAttribute] at hadd
      rw [List.filter_cons]
      split at hadd
      next directive =>
        cases hadd
        rw [not_derives_of_directive directive]
        exact ⟨edits, eq, all⟩
      next =>
        obtain ⟨edit?, hedit, hadd⟩ := bind_ok_iff.mp hadd
        rcases Attribute.withoutTrait?_ok hedit with ⟨other, rfl⟩ | ⟨named, edit, rfl, shortens⟩
        · obtain ⟨entry, _, hadd⟩ := bind_ok_iff.mp hadd
          cases hadd
          rw [other]
          exact ⟨edits, eq, all⟩
        · cases hadd
          rw [named]
          exact ⟨edit :: edits, by rw [eq, List.append_assoc, List.singleton_append], .cons shortens all⟩

theorem Parts.deriveEdits_ok (h : Parts source item enum body close pieces) :
    List.Forall₂ (Attribute.Shortens source marker) (item.attrs.filter (·.derives marker))
      enum.deriveEdits := by
  obtain ⟨edits, eq, all⟩ := foldlM_addAttribute h.attributes
  simp only [List.nil_append] at eq
  rw [eq]
  exact all

/-- The variants of an enum, each with the prelude of its piece. -/
theorem Parts.preludes (h : Parts source item enum body close pieces) :
    ∃ preludes : List (List Attribute × Cursor),
      List.Forall₂ (fun p x => Prelude p.start x.1 x.2) pieces preludes
        ∧ item.variantAttributes source = .ok (preludes.flatMap (·.1))
        ∧ enum.variants.flatMap (·.directives)
          = ((preludes.flatMap (·.1)).filter (Variant.directivePaths.contains ·.path)).map (·.span) := by
  obtain ⟨all, _⟩ := Variant.readAll_ok_iff.mp h.variants
  suffices ∃ preludes : List (List Attribute × Cursor),
      List.Forall₂ (fun p x => Prelude p.start x.1 x.2) pieces preludes
        ∧ enum.variants.flatMap (·.directives)
          = ((preludes.flatMap (·.1)).filter (Variant.directivePaths.contains ·.path)).map (·.span) by
    obtain ⟨preludes, hpreludes, eq⟩ := this
    refine ⟨preludes, hpreludes, ?_, eq⟩
    rw [Item.variantAttributes]
    refine bind_ok_iff.mpr ⟨body, skipTrivia_ok_iff.mpr h.toBody, ?_⟩
    refine bind_ok_iff.mpr ⟨close, h.closing, bind_ok_iff.mpr ⟨pieces, h.cut, ?_⟩⟩
    refine bind_ok_iff.mpr ⟨preludes, mapM_ok_iff.mpr ?_, rfl⟩
    exact hpreludes.imp fun p x hp => readPrelude_ok_iff.mpr hp
  clear h
  generalize enum.variants = variants at all
  induction all with
  | nil => exact ⟨[], .nil, rfl⟩
  | @cons p v pieces variants hv _ ih =>
      obtain ⟨attrs, fields, d, head, behind, place, rest, parts⟩ := Variant.read_ok_iff.mp hv
      obtain ⟨preludes, hpreludes, eq⟩ := ih
      refine ⟨(attrs, head) :: preludes, .cons parts.prelude hpreludes, ?_⟩
      rw [List.flatMap_cons, List.flatMap_cons, parts.spans_eq, eq, List.filter_append, List.map_append]

end EnumDecl

end EnumExtract
