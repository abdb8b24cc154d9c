/-
  EnumExtract.Proofs.Extraction
  ────────────────────────────────
  What extracting all variants of an enum makes of each of them.

  Three passes go over the variants: the names are chosen, the attributes are
  resolved, and the text is made.  They meet in look-ups by name, of a struct
  by its variant and of a conversion by its struct, and no look-up can go
  astray: the names that have been chosen are distinct.

  Main results:
    • `foldlM_add_ok_iff`     the names that are chosen,
    • `groups_zipWith`        every struct is followed by its own conversion,
    • `extractAll_partition`  the variants fall into structs and excluded names.
-/
import EnumExtract.Output.Block
import EnumExtract.Proofs.Walk
import Mathlib.Data.List.Nodup

namespace EnumExtract

/-! ## §1. Names. -/

namespace GeneratedNames

variable {enum : Text} {options : ExtractOptions} {names names' : List (Text × Text)}
  {variant : Variant} {variants : List Variant}

theorem owner?_eq_none_iff {identifier : Text} :
    owner? identifier names = none ↔ identifier ∉ names.map (·.2) := by
  unfold owner?
  rw [Option.map_eq_none_iff, List.find?_eq_none]
  simp only [List.mem_map, decide_eq_true_eq, not_exists, not_and]

theorem add_ok_iff : add enum options names variant = .ok names' ↔
    options.structName variant.name ≠ enum ∧ options.structName variant.name ∉ names.map (·.2)
      ∧ names' = names ++ [(variant.name, options.structName variant.name)] := by
  rw [← owner?_eq_none_iff]
  unfold add
  by_cases own : options.structName variant.name = enum
  · simp [own]
  · simp only [own, if_false]
    cases h : owner? (options.structName variant.name) names with
    | none => exact ⟨fun eq => ⟨own, rfl, (Except.ok.inj eq).symm⟩, fun ⟨_, _, eq⟩ => by rw [eq]⟩
    | some owner => exact ⟨nofun, nofun⟩

/-- A variant with the name of its struct. -/
def entry (options : ExtractOptions) (variant : Variant) : Text × Text :=
  (variant.name, options.structName variant.name)

/-- **The names that are chosen** are those of the variants, none is the enum's, and no two are
the same. -/
theorem foldlM_add_ok_iff : variants.foldlM (add enum options) names = .ok names' ↔
    names' = names ++ variants.map (entry options)
      ∧ (∀ v ∈ variants, options.structName v.name ≠ enum)
      ∧ (∀ v ∈ variants, options.structName v.name ∉ names.map (·.2))
      ∧ (variants.map fun v => options.structName v.name).Nodup := by
  induction variants generalizing names with
  | nil =>
      rw [List.foldlM_nil, pure_ok_iff]
      simp [eq_comm]
  | cons v rest ih =>
      rw [List.foldlM_cons, bind_ok_iff]
      constructor
      · rintro ⟨more, hv, hrest⟩
        obtain ⟨own, fresh, rfl⟩ := add_ok_iff.mp hv
        obtain ⟨rfl, owns, freshRest, distinct⟩ := ih.mp hrest
        simp only [List.map_append, List.map_cons, List.map_nil, List.mem_append, List.mem_singleton,
          not_or] at freshRest
        refine ⟨by rw [List.append_assoc]; rfl, List.forall_mem_cons.mpr ⟨own, owns⟩,
          List.forall_mem_cons.mpr ⟨fresh, fun w mem => (freshRest w mem).1⟩, ?_⟩
        rw [List.map_cons, List.nodup_cons]
        refine ⟨fun mem => ?_, distinct⟩
        obtain ⟨w, memw, same⟩ := List.mem_map.mp mem
        exact (freshRest w memw).2 same
      · rintro ⟨rfl, owns, fresh, distinct⟩
        rw [List.map_cons, List.nodup_cons] at distinct
        refine ⟨_, add_ok_iff.mpr ⟨owns v List.mem_cons_self, fresh v List.mem_cons_self, rfl⟩, ?_⟩
        refine ih.mpr ⟨by rw [List.append_assoc]; rfl, fun w mem => owns w (List.mem_cons_of_mem _ mem),
          fun w mem => ?_, distinct.2⟩
        rw [List.map_append, List.mem_append, not_or]
        refine ⟨fresh w (List.mem_cons_of_mem _ mem), ?_⟩
        simp only [List.map_cons, List.map_nil, List.mem_singleton]
        exact fun same => distinct.1 (List.mem_map.mpr ⟨w, mem, same⟩)

/-- Among variants whose structs have distinct names, each one is found by its name. -/
theorem lookup_entry (distinct : (variants.map fun v => options.structName v.name).Nodup)
    (mem : variant ∈ variants) :
    (variants.map (entry options)).lookup variant.name = some (options.structName variant.name) := by
  induction variants with
  | nil => cases mem
  | cons v rest ih =>
      rw [List.map_cons, entry, List.lookup_cons]
      rw [List.map_cons, List.nodup_cons] at distinct
      by_cases same : variant.name = v.name
      · rw [same, beq_self_eq_true]
      · rw [beq_eq_false_iff_ne.mpr same]
        cases mem with
        | head => exact absurd rfl same
        | tail _ mem => exact ih distinct.2 mem

/-- The names that are chosen for the structs of an enum. -/
theorem ofEnum_ok {enum : EnumDecl} {g : GeneratedNames} (h : ofEnum enum options = .ok g) :
    g.names = (enum.variants.filter (!·.excluded)).map (entry options)
      ∧ (∀ v ∈ enum.variants.filter (!·.excluded), options.structName v.name ≠ enum.name)
      ∧ ((enum.variants.filter (!·.excluded)).map fun v => options.structName v.name).Nodup := by
  obtain ⟨pairs, hpairs, ⟨⟩⟩ := bind_ok_iff.mp h
  obtain ⟨rfl, owns, _, distinct⟩ := foldlM_add_ok_iff.mp hpairs
  exact ⟨rfl, owns, distinct⟩

/-- A name that is looked up is the name of the struct of some variant. -/
theorem exists_of_identifier? {enum : EnumDecl} {g : GeneratedNames} (h : ofEnum enum options = .ok g)
    {name struct : Text} (found : g.identifier? name = some struct) :
    ∃ v ∈ enum.variants, struct = options.structName v.name := by
  obtain ⟨before, after, split, _⟩ := List.lookup_eq_some_iff.mp found
  have mem : (name, struct) ∈ g.names := by
    rw [← List.mem_reverse, split]
    exact List.mem_append_right _ List.mem_cons_self
  rw [(ofEnum_ok h).1] at mem
  obtain ⟨v, memv, same⟩ := List.mem_map.mp mem
  exact ⟨v, List.mem_of_mem_filter memv, (Prod.mk.inj same).2.symm⟩

/-- **Every variant is looked up**, where the structs have distinct names. -/
theorem identifier?_entries {g : GeneratedNames} (names : g.names = variants.map (entry options))
    (distinct : (variants.map fun v => options.structName v.name).Nodup) (mem : variant ∈ variants) :
    g.identifier? variant.name = some (options.structName variant.name) := by
  unfold identifier?
  rw [names, ← List.map_reverse]
  refine lookup_entry ?_ (List.mem_reverse.mpr mem)
  rw [List.map_reverse]
  exact List.nodup_reverse.mpr distinct

end GeneratedNames

/-! ## §2. Conversions by their structs. -/

namespace Conversion

variable {c : Conversion} {conversions known : List Conversion}

theorem put_of_fresh (fresh : c.struct ∉ known.map (·.struct)) : put c known = known ++ [c] := by
  induction known with
  | nil => rfl
  | cons d rest ih =>
      rw [List.map_cons, List.mem_cons, not_or] at fresh
      rw [put, if_neg fun same => fresh.1 same.symm, ih fresh.2]
      rfl

/-- No conversion is lost or moved where each has a struct of its own. -/
theorem perStruct_of_nodup (distinct : (conversions.map (·.struct)).Nodup) :
    perStruct conversions = conversions := by
  have grown : ∀ known : List Conversion, ((known ++ conversions).map (·.struct)).Nodup →
      conversions.foldl (fun known c => put c known) known = known ++ conversions := by
    clear distinct
    induction conversions with
    | nil => simp
    | cons c rest ih =>
        intro known distinct
        have fresh : c.struct ∉ known.map (·.struct) := by
          rw [List.map_append, List.nodup_append] at distinct
          exact fun mem => distinct.2.2 _ mem _ List.mem_cons_self rfl
        rw [List.foldl_cons, put_of_fresh fresh, ih _ (by rwa [List.append_assoc]),
          List.append_assoc]
        rfl
  exact grown [] distinct

/-- The first conversion is taken by its struct, and the others stay. -/
theorem take_cons {rest : List Conversion} (fresh : c.struct ∉ rest.map (·.struct)) :
    take c.struct (c :: rest) = (some c, rest) := by
  have others : rest.filter (·.struct ≠ c.struct) = rest := by
    rw [List.filter_eq_self]
    exact fun d mem => decide_eq_true fun same => fresh (List.mem_map.mpr ⟨d, mem, same⟩)
  unfold take
  rw [List.find?_cons, List.filter_cons_of_neg (by simp), others, decide_eq_true rfl]

end Conversion

namespace Block

variable {enum : EnumDecl} {options : ExtractOptions} {block : Block}

theorem groups_nil (structs : List StructDecl) : groups structs [] = structs.map (·.lines) := by
  induction structs with
  | nil => rfl
  | cons struct rest ih =>
      rw [groups, List.map_cons]
      exact congrArg₂ _ (List.append_nil _) ih

/-- **Every struct is followed by its own conversion** where the structs have distinct names. -/
theorem groups_zipWith {structs : List StructDecl} {conversions : List Conversion}
    (own : List.Forall₂ (fun s c => c.struct = s.name) structs conversions)
    (distinct : (structs.map (·.name)).Nodup) :
    groups structs conversions = List.zipWith (fun s c => s.lines ++ c.lines) structs conversions := by
  induction own with
  | nil => rfl
  | @cons s c structs conversions here own ih =>
      rw [List.map_cons, List.nodup_cons] at distinct
      have names : conversions.map (·.struct) = structs.map (·.name) := by
        clear ih distinct
        induction own with
        | nil => rfl
        | cons here _ ih => rw [List.map_cons, List.map_cons, here, ih]
      have fresh : c.struct ∉ conversions.map (·.struct) := by
        rw [here, names]
        exact distinct.1
      rw [groups, ← here, Conversion.take_cons fresh]
      exact congrArg (List.cons _) (ih distinct.2)

/-! ## §3. All variants of an enum. -/

/-- The struct of a variant: it has the variant's shape, the enum's visibility, a name around
that of the variant, and the attributes that are resolved for the variant. -/
structure StructOf (enum : EnumDecl) (options : ExtractOptions) (variant : Variant)
    (struct : StructDecl) : Prop where
  name : struct.name = options.leading ++ variant.name ++ options.trailing
  shape : struct.shape = variant.shape
  visibility : struct.visibility = enum.visibility
  metadata : variant.structMetadata? enum.metadata = some struct.metadata

/-- The conversion of a struct to the variant that it was made of. -/
structure ConversionOf (enum : EnumDecl) (variant : Variant) (made : StructDecl)
    (conversion : Conversion) : Prop where
  struct : conversion.struct = made.name
  shape : conversion.shape = made.shape
  path : conversion.enum = enum.name
  variant : conversion.variant = variant.name

/-- What a block holds of the variants of an enum, each of them once and in order. -/
structure Partition (enum : EnumDecl) (options : ExtractOptions) (block : Block) : Prop where
  kind : block.kind = .extract
  target : block.target = enum.name
  /-- One struct for each variant that is not excluded. -/
  structs : List.Forall₂ (StructOf enum options) (enum.variants.filter (!·.excluded)) block.structs
  /-- The names of the other variants. -/
  excluded : block.excluded = (enum.variants.filter (·.excluded)).map (·.name)
  distinct : (block.structs.map (·.name)).Nodup
  apart : ∀ struct ∈ block.structs, struct.name ≠ enum.name
  none : options.noImpl = true → block.conversions = []
  /-- One conversion for each struct. -/
  conversions : options.noImpl = false →
    List.Forall₂ (fun (x : Variant × StructDecl) c => ConversionOf enum x.1 x.2 c)
      ((enum.variants.filter (!·.excluded)).zip block.structs) block.conversions

/-- What is made of a variant that is not excluded. -/
def extracted (enum : EnumDecl) (options : ExtractOptions) (variant : Variant) : StructDecl × Conversion :=
  made enum variant (options.structName variant.name)
    (Metadata.merge (variant.metadata ++ Metadata.inCategory .derive enum.metadata))

/-- No variant is left out for want of a name. -/
theorem filterMap_extracted? {names : GeneratedNames} {variants : List Variant}
    (found : ∀ v ∈ variants.filter (!·.excluded), names.identifier? v.name = some (options.structName v.name)) :
    variants.filterMap (extracted? enum names)
      = (variants.filter (!·.excluded)).map (extracted enum options) := by
  induction variants with
  | nil => rfl
  | cons v rest ih =>
      rw [List.filterMap_cons, extracted?, Variant.structMetadata?]
      cases excluded : v.excluded with
      | true =>
          rw [List.filter_cons_of_neg (by rw [excluded]; decide)] at found ⊢
          exact ih found
      | false =>
          rw [List.filter_cons_of_pos (by rw [excluded]; rfl)] at found ⊢
          obtain ⟨here, found⟩ := List.forall_mem_cons.mp found
          rw [here]
          exact congrArg (List.cons _) (ih found)

theorem extracted_structOf {variant : Variant} (included : variant.excluded = false) :
    StructOf enum options variant (extracted enum options variant).1 :=
  ⟨rfl, rfl, rfl, by rw [Variant.structMetadata?, included]; rfl⟩

theorem extracted_conversionOf (variant : Variant) :
    ConversionOf enum variant (extracted enum options variant).1 (extracted enum options variant).2 :=
  ⟨rfl, rfl, rfl, rfl⟩

/-- **The variants fall into structs and excluded names**, and the lines of the block give each
struct its own conversion.  Every struct is named by looking its variant up. -/
theorem extractAll_partition (h : extractAll enum options = .ok block) :
    Partition enum options block
      ∧ (∃ names, GeneratedNames.ofEnum enum options = .ok names
          ∧ List.Forall₂ (fun v s => names.identifier? v.name = some s.name)
            (enum.variants.filter (!·.excluded)) block.structs)
      ∧ block.lines = ["// <" ++ generatorName ++ ": " ++ enum.name ++ ">"]
          ++ List.intercalate [[]] (if options.noImpl then block.structs.map (·.lines)
            else List.zipWith (fun s c => s.lines ++ c.lines) block.structs block.conversions)
          ++ ["// </" ++ generatorName ++ ": " ++ enum.name ++ ">"] := by
  obtain ⟨names, hnames, _⟩ := bind_ok_iff.mp h
  obtain ⟨pairs, owns, distinct⟩ := GeneratedNames.ofEnum_ok hnames
  have found : ∀ v ∈ enum.variants.filter (!·.excluded),
      names.identifier? v.name = some (options.structName v.name) :=
    fun v mem => GeneratedNames.identifier?_entries pairs distinct mem
  rw [extractAll, hnames] at h
  cases h
  simp only [filterMap_extracted? found, List.map_map]
  have included : ∀ v ∈ enum.variants.filter (!·.excluded), v.excluded = false := fun v mem => by
    simpa using (List.mem_filter.mp mem).2
  generalize hkept : enum.variants.filter (!·.excluded) = kept at owns distinct included found
  have names_eq : (kept.map (Prod.fst ∘ extracted enum options)).map (·.name)
      = kept.map fun v => options.structName v.name := by
    rw [List.map_map]
    rfl
  have owned : List.Forall₂ (fun s c => c.struct = s.name) (kept.map (Prod.fst ∘ extracted enum options))
      (kept.map (Prod.snd ∘ extracted enum options)) := by
    rw [List.forall₂_map_left_iff, List.forall₂_map_right_iff]
    exact List.forall₂_same.mpr fun v _ => (extracted_conversionOf v).struct
  refine ⟨⟨rfl, rfl, ?_, rfl, by rwa [names_eq], ?_, fun none => if_pos none, fun some => ?_⟩,
    ⟨names, hnames, ?_⟩, ?_⟩
  · rw [hkept, List.forall₂_map_right_iff]
    refine List.forall₂_same.mpr fun v mem => ?_
    exact extracted_structOf (included v mem)
  · intro struct mem
    obtain ⟨v, memv, rfl⟩ := List.mem_map.mp mem
    exact owns v memv
  · simp only [hkept, some, Bool.false_eq_true, if_false]
    rw [← List.map_prod_left_eq_zip, List.forall₂_map_left_iff, List.forall₂_map_right_iff]
    refine List.forall₂_same.mpr fun v _ => ?_
    exact extracted_conversionOf v
  · rw [List.forall₂_map_right_iff]
    refine List.forall₂_same.mpr fun v mem => ?_
    exact found v mem
  · rw [lines]
    cases options.noImpl with
    | true =>
        have none : Conversion.perStruct [] = [] := rfl
        rw [if_pos rfl, if_pos rfl, none, groups_nil, List.map_map]
    | false =>
        have taken : ((kept.map (Prod.snd ∘ extracted enum options)).map (·.struct)).Nodup := by
          rw [List.map_map]
          exact distinct
        rw [if_neg (by decide), if_neg (by decide), Conversion.perStruct_of_nodup taken,
          groups_zipWith owned (by rwa [names_eq])]

/-- An enum with two variants that share a name, one of them excluded. -/
def doubledVariant : EnumDecl where
  name := "E"
  visibility := "pub"
  variants :=
    [⟨"A", ⟨.unit, []⟩, [], true, 0, []⟩,
     ⟨"A", ⟨.positional, [⟨none, .ofText "u8", []⟩]⟩, [⟨.doc, "/// An A.", []⟩], false, 1, []⟩,
     ⟨"B", ⟨.unit, []⟩, [], false, 2, []⟩]
  metadata := [.derive ["Clone"]]
  start := 0
  stop := 0
  directives := []
  deriveEdits := []

theorem doubledVariant_partition :
    ∃ block, extractAll doubledVariant ⟨"My", [], false⟩ = .ok block
      ∧ Partition doubledVariant ⟨"My", [], false⟩ block := by
  obtain ⟨block, h, _⟩ : ∃ block, extractAll doubledVariant ⟨"My", [], false⟩ = .ok block
      ∧ block.structs.length = 2 := exists_ok_of_decide (by decide +kernel)
  exact ⟨block, h, (extractAll_partition h).1⟩

end Block

end EnumExtract
