/-
  EnumExtract.Proofs.Binding
  ────────────────────────────────
  Binding a struct to a variant.

  Two shapes are compared step by step: the layouts, the numbers of fields,
  then the fields in turn, by name and by type, and the first difference is
  reported.  A struct *mirrors* a variant if nothing of this differs; what is
  written besides, the attributes of the fields and the blanks in their types,
  plays no part.

  Main results:
    • `difference?_eq_none_iff`  the comparison finds nothing in mirrored shapes
                                 and something in all others,
    • `bindOne_outcome`          a struct is bound exactly if it mirrors the first
                                 variant of the name; each failure has one reason.
-/
import EnumExtract.Output.Block
import EnumExtract.Proofs.Walk
import Mathlib.Data.List.Forall2

namespace EnumExtract

/-! ## §1. Mirrored shapes. -/

/-- The fields have the same name, or both none, and types of the same tokens. -/
def Field.Mirrors (want got : Field) : Prop :=
  want.name = got.name ∧ want.type.tokens = got.type.tokens

namespace Shape

/-- The shapes have the same layout and as many fields, which mirror each other in order. -/
structure Mirrors (expected found : Shape) : Prop where
  kind : expected.kind = found.kind
  fields : List.Forall₂ Field.Mirrors expected.fields found.fields

/-- Among lists of one length, the walk finds no difference exactly if every pair of fields
mirrors; the position it counts from is only reported. -/
theorem fieldDifference?_eq_none_iff (position : Nat) {wants gots : List Field}
    (length : wants.length = gots.length) :
    fieldDifference? position wants gots = none ↔ List.Forall₂ Field.Mirrors wants gots := by
  induction wants generalizing position gots with
  | nil =>
      obtain rfl := List.length_eq_zero_iff.mp length.symm
      exact ⟨fun _ => .nil, fun _ => rfl⟩
  | cons want wants ih =>
      cases gots with
      | nil => cases length
      | cons got gots =>
          rw [fieldDifference?, List.forall₂_cons, Field.Mirrors, FieldType.same]
          have rest := ih (position + 1) (Nat.succ.inj length)
          by_cases name : want.name = got.name
          · by_cases tokens : want.type.tokens = got.type.tokens
            · simp [name, tokens, rest]
            · simp [name, tokens]
          · simp [name]

/-- **The comparison finds a difference exactly in shapes that are not mirrored.** -/
theorem difference?_eq_none_iff (expected found : Shape) :
    expected.difference? found = none ↔ expected.Mirrors found := by
  rw [difference?]
  by_cases kind : expected.kind = found.kind
  · by_cases length : expected.fields.length = found.fields.length
    · rw [if_neg (not_not_intro kind), if_neg (not_not_intro length),
        fieldDifference?_eq_none_iff 0 length]
      exact ⟨fun fields => ⟨kind, fields⟩, fun mirrors => mirrors.fields⟩
    · rw [if_neg (not_not_intro kind), if_pos length]
      exact ⟨nofun, fun mirrors => absurd mirrors.fields.length_eq length⟩
  · rw [if_pos kind]
    exact ⟨nofun, fun mirrors => absurd mirrors.kind kind⟩

instance (expected found : Shape) : Decidable (expected.Mirrors found) :=
  decidable_of_iff _ (difference?_eq_none_iff expected found)

end Shape

/-! ## §2. The variant of a name. -/

namespace EnumDecl

variable {enum : EnumDecl} {name : Text} {variant : Variant}

/-- The variant is the first of the enum's that has the name. -/
def IsFirst (enum : EnumDecl) (name : Text) (variant : Variant) : Prop :=
  ∃ before after, enum.variants = before ++ variant :: after ∧ variant.name = name
    ∧ ∀ earlier ∈ before, earlier.name ≠ name

theorem find?_eq_some_iff :
    Variant.find? name enum.variants = some variant ↔ enum.IsFirst name variant := by
  rw [Variant.find?, List.find?_eq_some_iff_append]
  constructor
  · rintro ⟨named, before, after, eq, others⟩
    refine ⟨before, after, eq, of_decide_eq_true named, fun earlier mem => ?_⟩
    simpa using others earlier mem
  · rintro ⟨before, after, eq, named, others⟩
    refine ⟨decide_eq_true named, before, after, eq, fun earlier mem => ?_⟩
    simpa using others earlier mem

theorem find?_eq_none_iff :
    Variant.find? name enum.variants = none ↔ ∀ variant ∈ enum.variants, variant.name ≠ name := by
  rw [Variant.find?, List.find?_eq_none]
  simp only [decide_eq_true_iff, ne_eq]

theorem IsFirst.unique {other : Variant} (h : enum.IsFirst name variant)
    (h' : enum.IsFirst name other) : variant = other :=
  Option.some.inj ((find?_eq_some_iff.mpr h).symm.trans (find?_eq_some_iff.mpr h'))

/-- What the match with a variant comes to, one case for each of its ends. -/
theorem matching_cases (enum : EnumDecl) (struct : StructDecl) (name : Text) (index : Nat) :
    (∃ variant, enum.IsFirst name variant ∧ variant.shape.Mirrors struct.shape
        ∧ enum.matching struct name index = .ok variant)
      ∨ ((∀ variant ∈ enum.variants, variant.name ≠ name)
        ∧ enum.matching struct name index = .error ⟨.unknownVariant enum.name name, index, none⟩)
      ∨ ∃ variant difference, enum.IsFirst name variant ∧ ¬ variant.shape.Mirrors struct.shape
        ∧ enum.matching struct name index
            = .error ⟨.shapeMismatch struct.name enum.name name difference, index, none⟩ := by
  rw [matching]
  cases found : Variant.find? name enum.variants with
  | none => exact .inr (.inl ⟨find?_eq_none_iff.mp found, rfl⟩)
  | some variant =>
      have first := find?_eq_some_iff.mp found
      cases differs : variant.shape.difference? struct.shape with
      | none =>
          refine .inl ⟨variant, first, (Shape.difference?_eq_none_iff _ _).mp differs, ?_⟩
          simp only [differs]
      | some difference =>
          refine .inr (.inr ⟨variant, difference, first, fun mirrors => ?_, ?_⟩)
          · rw [(Shape.difference?_eq_none_iff _ _).mpr mirrors] at differs
            cases differs
          · simp only [differs]

end EnumDecl

/-! ## §3. Binding. -/

namespace Block

/-- The name of the variant that a struct is bound to: the one that is given, the struct's
own if none is given or it is empty. -/
def boundName (struct : StructDecl) : Option Text → Text
  | some (c :: name) => c :: name
  | _ => struct.name

theorem filter_getD_eq (struct : StructDecl) (variant? : Option Text) :
    (variant?.filter (!·.isEmpty)).getD struct.name = boundName struct variant? := by
  match variant? with
  | none => rfl
  | some [] => rfl
  | some (_ :: _) => rfl

/-- The block of a bound struct: one conversion, with the struct's own shape. -/
def bound (struct : StructDecl) (path name : Text) : Block :=
  ⟨.bind, struct.name, [], [⟨struct.name, path, name, struct.shape⟩], []⟩

theorem bindOne_eq (struct : StructDecl) (enum : EnumDecl) (path : Text) (variant? : Option Text)
    (index : Nat) :
    bindOne struct enum path variant? index
      = (enum.matching struct (boundName struct variant?) index).map
          fun _ => bound struct path (boundName struct variant?) := by
  rw [bindOne, filter_getD_eq]
  cases enum.matching struct (boundName struct variant?) index with
  | error fault => rfl
  | ok variant => rfl

/-- **A struct is bound exactly if it mirrors the first variant of the name**, and the
conversion then has the shape of the variant.  It is refused for want of a variant exactly if
none has the name, and for a mismatch exactly if the first one that has it is not mirrored.
The comparison that decides this is silent on mirrored shapes and on no others. -/
theorem bindOne_outcome (struct : StructDecl) (enum : EnumDecl) (path : Text)
    (variant? : Option Text) (index : Nat) :
    ((∃ block, bindOne struct enum path variant? index = .ok block)
        ↔ ∃ variant, enum.IsFirst (boundName struct variant?) variant
            ∧ variant.shape.Mirrors struct.shape)
      ∧ ((∃ fault, bindOne struct enum path variant? index = .error fault
            ∧ fault.cause.code = .unknownVariant)
          ↔ ∀ variant ∈ enum.variants, variant.name ≠ boundName struct variant?)
      ∧ ((∃ fault, bindOne struct enum path variant? index = .error fault
            ∧ fault.cause.code = .fieldMismatch)
          ↔ ∃ variant, enum.IsFirst (boundName struct variant?) variant
              ∧ ¬ variant.shape.Mirrors struct.shape)
      ∧ (∀ expected found : Shape,
          expected.difference? found = none ↔ expected.Mirrors found)
      ∧ ∀ block, bindOne struct enum path variant? index = .ok block →
          ∃ variant conversion, enum.IsFirst (boundName struct variant?) variant
            ∧ block.conversions = [conversion] ∧ variant.shape.Mirrors conversion.shape := by
  rw [bindOne_eq]
  obtain ⟨variant, first, mirrors, h⟩ | ⟨none, h⟩ | ⟨variant, difference, first, differs, h⟩ :=
    enum.matching_cases struct (boundName struct variant?) index
  all_goals rw [h]
  · refine ⟨⟨fun _ => ⟨variant, first, mirrors⟩, fun _ => ⟨_, rfl⟩⟩, ⟨nofun, fun none => ?_⟩,
      ⟨nofun, ?_⟩, Shape.difference?_eq_none_iff, ?_⟩
    · obtain ⟨before, after, eq, named, _⟩ := first
      exact absurd named (none variant (eq ▸ by simp))
    · rintro ⟨other, isFirst, differs⟩
      exact absurd (first.unique isFirst ▸ mirrors) differs
    · rintro block ⟨⟩
      exact ⟨variant, _, first, rfl, mirrors⟩
  · have absent (variant : Variant) : ¬ enum.IsFirst (boundName struct variant?) variant := by
      rintro ⟨before, after, eq, named, _⟩
      exact none variant (eq ▸ by simp) named
    refine ⟨⟨nofun, fun ⟨v, first, _⟩ => absurd first (absent v)⟩,
      ⟨fun _ => none, fun _ => ⟨_, rfl, rfl⟩⟩, ⟨?_, fun ⟨v, first, _⟩ => absurd first (absent v)⟩,
      Shape.difference?_eq_none_iff, nofun⟩
    rintro ⟨fault, eq, code⟩
    cases eq
    cases code
  · refine ⟨⟨nofun, ?_⟩, ⟨?_, fun none => ?_⟩,
      ⟨fun _ => ⟨variant, first, differs⟩, fun _ => ⟨_, rfl, rfl⟩⟩,
      Shape.difference?_eq_none_iff, nofun⟩
    · rintro ⟨other, isFirst, mirrors⟩
      exact absurd (first.unique isFirst ▸ mirrors) differs
    · rintro ⟨fault, eq, code⟩
      cases eq
      cases code
    · obtain ⟨before, after, eq, named, _⟩ := first
      exact absurd named (none variant (eq ▸ by simp))

/-- A variant `Coord(Vec<u8>)`. -/
def coord : Variant :=
  ⟨"Coord", ⟨.positional, [⟨none, .ofText "Vec<u8>", []⟩]⟩, [], false, 0, []⟩

/-- An enum with a unit variant before `Coord`. -/
def figure : EnumDecl :=
  ⟨"Figure", [], [⟨"Origin", ⟨.unit, []⟩, [], false, 0, []⟩, coord], [], 0, 0, [], []⟩

/-- A struct `Pair(#[serde(skip)] Vec< u8 >)`. -/
def pair : StructDecl :=
  ⟨"Pair", [], ⟨.positional, [⟨none, .ofText "Vec< u8 >", ["#[serde(skip)]"]⟩]⟩, [], 0, 0⟩

/-- Blanks in a type and the attribute of a field do not keep the struct from being bound. -/
theorem pair_bound :
    ∃ block conversion, bindOne pair figure "Figure" (some "Coord") 0 = .ok block
      ∧ block.conversions = [conversion] ∧ coord.shape.Mirrors conversion.shape := by
  have first : figure.IsFirst (boundName pair (some "Coord")) coord :=
    EnumDecl.find?_eq_some_iff.mp (by decide)
  obtain ⟨bound_iff, _, _, _, same⟩ := bindOne_outcome pair figure "Figure" (some "Coord") 0
  obtain ⟨block, h⟩ := bound_iff.mpr ⟨coord, first, by decide⟩
  obtain ⟨variant, conversion, isFirst, eq, mirrors⟩ := same block h
  exact ⟨block, conversion, h, eq, first.unique isFirst ▸ mirrors⟩

end Block

end EnumExtract
