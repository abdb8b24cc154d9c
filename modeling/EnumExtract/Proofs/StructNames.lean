/-
  EnumExtract.Proofs.StructNames
  ────────────────────────────────
  The names of extracted structs, and when they are identifiers.

  A struct's name is the variant's between the two options around it.  The
  options are plain names, but a variant may be a raw identifier, and its `r#`
  is no mark of a raw identifier where something stands before it: `My` and
  `r#A` make `Myr#A`.

  Main results:
    • `isIdentifier_surround_iff`   what may stand before an identifier,
    • `ofAttributes_plain`          the options of an enum are plain names,
    • `transform_structNames`       the names of all structs of a transformed
                                    source, and which are identifiers.
-/
import EnumExtract.Proofs.Extraction
import EnumExtract.Proofs.LineEnds
import EnumExtract.Proofs.Transformation

namespace EnumExtract

/-! ## §1. Names around an identifier. -/

/-- A name goes on with word characters. -/
theorem IsName.append {n s : Text} (h : IsName n) (word : ∀ ch ∈ s, EnumExtract.isWord ch = true) :
    IsName (n ++ s) := by
  obtain ⟨c, v, rfl, start, rest⟩ := h
  refine ⟨c, v ++ s, rfl, start, fun ch mem => ?_⟩
  rcases List.mem_append.mp mem with mem | mem
  · exact rest ch mem
  · exact word ch mem

/-- A name, or nothing. -/
def Text.IsOptionalName (w : Text) : Prop :=
  w = [] ∨ IsName w

theorem Text.IsOptionalName.isWord {w : Text} (h : w.IsOptionalName) : ∀ ch ∈ w, EnumExtract.isWord ch = true := by
  rcases h with rfl | h
  · exact nofun
  · exact h.isWord

/-- Behind a name no raw identifier goes on. -/
theorem not_isIdentifier_raw {p n : Text} (h : IsName p) : ¬ IsIdentifier (p ++ 'r' :: '#' :: n) := by
  obtain ⟨c, v, rfl, _, word⟩ := h
  have hash : '#' ∈ c :: v ++ 'r' :: '#' :: n := by simp
  rintro (name | ⟨m, _, eq⟩)
  · -- the hash is no word character
    cases name.isWord '#' hash
  · -- the hash of a raw identifier is its second character
    have second := (List.cons.inj eq).2
    cases v with
    | nil => cases (List.cons.inj second).1
    | cons x v =>
        obtain rfl : x = '#' := (List.cons.inj second).1
        cases word '#' List.mem_cons_self

/-- **What may stand around an identifier.**  In front of a raw one nothing may. -/
theorem isIdentifier_surround_iff {p n s : Text} (hp : p.IsOptionalName) (hn : IsIdentifier n)
    (hs : s.IsOptionalName) : IsIdentifier (p ++ n ++ s) ↔ p = [] ∨ IsName n := by
  have behind : IsIdentifier (n ++ s) := by
    rcases hn with name | ⟨m, name, rfl⟩
    · exact .inl (name.append hs.isWord)
    · exact .inr ⟨m ++ s, name.append hs.isWord, rfl⟩
  rw [List.append_assoc]
  constructor
  · intro h
    rcases hp with rfl | hp
    · exact .inl rfl
    · rcases hn with name | ⟨m, name, rfl⟩
      · exact .inr name
      · exact absurd h (not_isIdentifier_raw hp)
  · rintro (rfl | name)
    · exact behind
    · rcases hp with rfl | hp
      · exact behind
      · refine .inl (hp.append fun ch mem => ?_)
        rcases List.mem_append.mp mem with mem | mem
        · exact name.isWord ch mem
        · exact hs.isWord ch mem

/-! ## §2. The options of an enum. -/

/-- What stands around the variants' names. -/
structure ExtractOptions.Plain (options : ExtractOptions) : Prop where
  leading : options.leading.IsOptionalName
  trailing : options.trailing.IsOptionalName

/-- The value of an option is a plain name. -/
theorem WrittenOption.nameValue_isName (o : WrittenOption) : Gives IsName o.nameValue := by
  unfold nameValue
  split
  · next name _ =>
    split
    · next whole =>
      simp only [Bool.and_eq_true, Bool.not_eq_true', List.isEmpty_eq_false_iff,
        decide_eq_true_eq] at whole
      obtain ⟨more, length⟩ := whole
      rcases Text.nameLength_cases name with ⟨none, _⟩ | ⟨w, rest, rfl, isName, same, _⟩
      · rw [none] at length
        exact absurd (List.length_eq_zero_iff.mp length.symm) more
      · rw [← same, List.length_append, Nat.left_eq_add] at length
        rw [List.length_eq_zero_iff.mp length, List.append_nil]
        exact isName
    · trivial
  · trivial

namespace ExtractOptions

/-- The names among the options met so far. -/
structure Found.Plain (found : Found) : Prop where
  leading : ∀ leading ∈ found.leading, IsName leading
  trailing : ∀ trailing ∈ found.trailing, IsName trailing

theorem Found.add_plain {found : Found} (h : found.Plain) (o : WrittenOption) :
    Gives Found.Plain (found.add o) := by
  unfold Found.add
  dsimp only
  split
  · split
    · trivial
    · refine o.nameValue_isName.bind fun name isName => ⟨?_, h.trailing⟩
      rintro leading ⟨⟩
      exact isName
  · split
    · split
      · trivial
      · refine o.nameValue_isName.bind fun name isName => ⟨h.leading, ?_⟩
        rintro trailing ⟨⟩
        exact isName
    · split
      · split
        · trivial
        · split
          · trivial
          · exact ⟨h.leading, h.trailing⟩
      · trivial

/-- **The options of an enum are plain names.** -/
theorem ofAttributes_plain (attrs : List Attribute) : Gives Plain (ofAttributes attrs) := by
  have given : ∀ name : Option Text, (∀ n ∈ name, IsName n) → Text.IsOptionalName (name.getD []) := by
    intro name all
    cases name with
    | none => exact .inl rfl
    | some n => exact .inr (all n rfl)
  unfold ofAttributes
  split
  · trivial
  · have start : Found.Plain ⟨none, none, false⟩ := ⟨nofun, nofun⟩
    refine (Ends.foldlM start fun found hfound a _ => ?_).bind
      fun found hfound => ⟨given _ hfound.leading, given _ hfound.trailing⟩
    refine (Gives.anything (WrittenOption.ofAttribute a)).bind fun options _ => ?_
    exact .foldlM hfound fun found hfound o _ => Found.add_plain hfound o

end ExtractOptions

/-! ## §3. The variants of an enum. -/

theorem Variant.isIdentifier_name {source : Text} {piece : Piece} {v : Variant}
    (h : read source piece = .ok v) : IsIdentifier v.name := by
  obtain ⟨_, _, _, _, _, _, _, parts⟩ := read_ok_iff.mp h
  obtain ⟨_, _, isIdentifier, _⟩ := Text.identifier?_some (Cursor.identifier?_eq_some parts.name).1
  exact isIdentifier

theorem EnumDecl.isIdentifier_variant {source : Text} {item : Item} {enum : EnumDecl} {v : Variant}
    (h : read source item = .ok enum) (mem : v ∈ enum.variants) : IsIdentifier v.name := by
  obtain ⟨_, _, _, parts⟩ := read_ok_iff.mp h
  obtain ⟨_, _, hread⟩ := exists_of_forall₂_right (Variant.readAll_ok_iff.mp parts.variants).1 mem
  exact Variant.isIdentifier_name hread

/-! ## §4. The structs of a source. -/

/-- The struct is named after the variant.  Its name is an identifier unless it begins with
something else than the mark of a raw variant. -/
structure ExtractOptions.Names (options : ExtractOptions) (v : Variant) (s : StructDecl) : Prop where
  name : s.name = options.leading ++ v.name ++ options.trailing
  isIdentifier_iff : IsIdentifier s.name ↔ options.leading = [] ∨ IsName v.name

/-- **The names of extracted structs.**  In a transformed source each struct of a marked enum has
the name that the options make of its variant's, and exactly those names are identifiers that
put nothing in front of a raw variant. -/
theorem transform_structNames {source label : Text} {schema : List EnumSource} {rendered : Rendered}
    (h : transform source schema label = .ok rendered) :
    ∃ items, source.items = .ok items
      ∧ List.Forall₂ (fun item block => item.kind = .enum → ∃ enum options,
          EnumDecl.read source item = .ok enum ∧ ExtractOptions.ofAttributes item.attrs = .ok options
            ∧ List.Forall₂ options.Names (enum.variants.filter (!·.excluded)) block.structs)
        (items.filter (·.isAnnotated)) rendered.blocks := by
  obtain ⟨changes, hplan, hrendered⟩ := bind_ok_iff.mp h
  cases hrendered
  obtain ⟨items, hitems, made⟩ := plan_ok hplan
  refine ⟨items, hitems, List.forall₂_map_right_iff.mpr (made.imp fun item change hmade kind => ?_)⟩
  obtain ⟨enum, options, henum, hoptions, hblock⟩ := hmade.extracts kind
  have plain := (ExtractOptions.ofAttributes_plain item.attrs).of_ok hoptions
  have structs := (Block.extractAll_partition hblock).1.structs
  have known : ∀ v ∈ enum.variants.filter (!·.excluded), IsIdentifier v.name := fun v mem =>
    EnumDecl.isIdentifier_variant henum (List.mem_filter.mp mem).1
  refine ⟨enum, options, henum, hoptions, ?_⟩
  refine ((List.forall₂_and_left _ _).mpr ⟨known, structs⟩).imp fun v s ⟨hv, hs⟩ => ⟨hs.name, ?_⟩
  rw [hs.name]
  exact isIdentifier_surround_iff plain.leading hv plain.trailing

/-- An enum with a raw variant, whose structs are to begin with `My`. -/
def rawVariant : Text :=
  "#[extract_variant(prefix(My))] enum E \x7b A, r#B \x7d"

theorem rawVariant_structNames :
    ∃ rendered, transform rawVariant [] "" = .ok rendered
      ∧ ∃ items, rawVariant.items = .ok items
        ∧ List.Forall₂ (fun item block => item.kind = .enum → ∃ enum options,
            EnumDecl.read rawVariant item = .ok enum
              ∧ ExtractOptions.ofAttributes item.attrs = .ok options
              ∧ List.Forall₂ options.Names (enum.variants.filter (!·.excluded)) block.structs)
          (items.filter (·.isAnnotated)) rendered.blocks := by
  have found : ∃ rendered, transform rawVariant [] "" = .ok rendered ∧ True :=
    exists_ok_of_decide (p := fun _ => True) (by decide +kernel)
  obtain ⟨rendered, h, _⟩ := found
  exact ⟨rendered, h, transform_structNames h⟩

/-- The name of the second struct is no identifier. -/
theorem rawVariant_notIdentifier :
    ∃ rendered, transform rawVariant [] "" = .ok rendered
      ∧ ∃ block ∈ rendered.blocks, ∃ s ∈ block.structs, ¬ IsIdentifier s.name := by
  obtain ⟨rendered, h, names⟩ := exists_ok_of_decide (x := transform rawVariant [] "")
    (p := fun r => r.blocks.map (fun b => b.structs.map (·.name)) = [[("MyA" : Text), "Myr#B"]])
    (by decide +kernel)
  obtain ⟨block, eq, hblock⟩ := List.map_eq_singleton_iff.mp names
  obtain ⟨s, mem, name⟩ : ∃ s ∈ block.structs, s.name = "Myr#B" :=
    List.mem_map.mp (by rw [hblock]; simp)
  refine ⟨rendered, h, block, by rw [eq]; simp, s, mem, ?_⟩
  rw [name]
  exact not_isIdentifier_raw (p := "My") ⟨'M', ['y'], rfl, rfl, by decide⟩

end EnumExtract
