/-
  EnumExtract.Proofs.Contents
  ────────────────────────────────
  The content of a generated file survives being written and read back.

  What is generated is put together from texts of the source and from fixed ones,
  none of which has a carriage return.  So the content of a file whose source and
  labels have none has none either, and reading it with its line ends as line feeds
  changes nothing.

  Main results:
    • `Block.insertion_noReturn`   the text of a block,
    • `transform_noReturn`         a transformed source,
    • `generate_noReturn`          a generated file.
-/
import EnumExtract.GeneratedFile
import EnumExtract.Proofs.Edits
import EnumExtract.Proofs.Extraction
import EnumExtract.Proofs.LineEnds
import EnumExtract.Proofs.Merging

namespace EnumExtract

open Text

/-! ## §1. Numbers and lines. -/

/-- No digit is a carriage return. -/
theorem digitChar_ne : ∀ n, n < 16 → Nat.digitChar n ≠ '\r' := by
  decide

theorem toDigits_noReturn {base : Nat} (pos : 0 < base) (le : base ≤ 16) (n : Nat) :
    Text.NoReturn (Nat.toDigits base n) := by
  have core : ∀ (fuel n : Nat) (known : Text), known.NoReturn →
      Text.NoReturn (Nat.toDigitsCore base fuel n known) := by
    intro fuel
    induction fuel with
    | zero => exact fun _ _ h => h
    | succ fuel ih =>
        intro n known h
        have digit : n % base < 16 := Nat.lt_of_lt_of_le (Nat.mod_lt n pos) le
        have more : Text.NoReturn (Nat.digitChar (n % base) :: known) :=
          noReturn_cons.mpr ⟨digitChar_ne _ digit, h⟩
        unfold Nat.toDigitsCore
        dsimp only
        split
        · exact more
        · exact ih _ _ more
  exact core _ n [] noReturn_nil

theorem ofNat_noReturn (n : Nat) : (ofNat n).NoReturn :=
  toDigits_noReturn (by decide) (by decide) n

theorem hex_noReturn (width n : Nat) : (hex width n).NoReturn := by
  refine noReturn_append.mpr ⟨fun mem => ?_, toDigits_noReturn (by decide) (by decide) n⟩
  exact absurd (List.eq_of_mem_replicate mem) (by decide)

theorem hexDigest_noReturn (message : List UInt8) : (Sha256.hexDigest message).NoReturn := by
  unfold Sha256.hexDigest
  rw [List.flatMap_def]
  refine noReturn_flatten fun part mem => ?_
  obtain ⟨word, _, rfl⟩ := List.mem_map.mp mem
  exact hex_noReturn 8 _

/-! ## §2. Options. -/

/-- The texts of the options. -/
structure ExtractOptions.NoReturn (o : ExtractOptions) : Prop where
  leading : o.leading.NoReturn
  trailing : o.trailing.NoReturn

namespace WrittenOption

/-- The value of an option that has one. -/
def ValueNoReturn (o : WrittenOption) : Prop :=
  ∀ value ∈ o.value, Text.NoReturn value

theorem group?_noReturn {t : Text} (h : t.NoReturn) : ∀ value ∈ group? t, Text.NoReturn value := by
  intro value found
  unfold group? at found
  split at found
  · dsimp only at found
    split at found
    · exact Option.some.inj found ▸ (h.drop 1).takeWhile _
    · exact nomatch found
  · exact nomatch found

theorem readList_noReturn {c : Cursor} (h : c.NoReturn) :
    Gives (fun options => ∀ o ∈ options, o.ValueNoReturn) (readList c) := by
  have reversed : ∀ {options : List WrittenOption}, (∀ o ∈ options, o.ValueNoReturn) →
      ∀ o ∈ options.reverse, o.ValueNoReturn := fun all o mem => all o (List.mem_reverse.mp mem)
  refine Cursor.walk_gives (I := fun options => ∀ o ∈ options, o.ValueNoReturn) h nofun
    (fun options place hoptions clean => ?_) fun _ _ hoptions _ => reversed hoptions
  unfold readList.step
  split
  · exact reversed hoptions
  · split
    · next o length found =>
      refine List.forall_mem_cons.mpr ⟨?_, hoptions⟩
      unfold at? at found
      dsimp only at found
      split at found
      · exact nomatch found
      · obtain ⟨rfl, _⟩ := Prod.mk.inj (Option.some.inj found)
        exact group?_noReturn (Text.NoReturn.drop clean _)
    · trivial

theorem ofAttribute_noReturn {a : Attribute} (h : a.NoReturn) :
    Gives (fun options => ∀ o ∈ options, o.ValueNoReturn) (ofAttribute a) := by
  unfold ofAttribute
  split
  · split
    · next args eq => exact readList_noReturn (h.args args eq)
    · exact fun _ => nofun
  · split
    · refine List.forall_mem_singleton.mpr fun value mem => ?_
      obtain ⟨args, eq, rfl⟩ := Option.map_eq_some_iff.mp mem
      exact h.args args eq
    · exact fun _ => nofun

theorem nameValue_noReturn {o : WrittenOption} (h : o.ValueNoReturn) :
    Gives Text.NoReturn o.nameValue := by
  unfold nameValue
  split
  · next name found =>
    obtain ⟨value, eq, rfl⟩ := Option.map_eq_some_iff.mp found
    split
    · exact (h value eq).trim
    · trivial
  · trivial

end WrittenOption

namespace ExtractOptions

/-- The texts of the options met so far. -/
structure Found.NoReturn (found : Found) : Prop where
  leading : ∀ leading ∈ found.leading, Text.NoReturn leading
  trailing : ∀ trailing ∈ found.trailing, Text.NoReturn trailing

theorem Found.add_noReturn {found : Found} {o : WrittenOption} (hf : found.NoReturn)
    (ho : o.ValueNoReturn) : Gives Found.NoReturn (found.add o) := by
  have value := WrittenOption.nameValue_noReturn ho
  unfold Found.add
  dsimp only
  split
  · split
    · trivial
    · refine value.bind fun name hname => ⟨?_, hf.trailing⟩
      rintro leading ⟨⟩
      exact hname
  · split
    · split
      · trivial
      · refine value.bind fun name hname => ⟨hf.leading, ?_⟩
        rintro trailing ⟨⟩
        exact hname
    · split
      · split
        · trivial
        · split
          · trivial
          · exact ⟨hf.leading, hf.trailing⟩
      · trivial

theorem ofAttributes_noReturn {attrs : List Attribute} (h : ∀ a ∈ attrs, a.NoReturn) :
    Gives ExtractOptions.NoReturn (ofAttributes attrs) := by
  have given : ∀ text : Option Text, (∀ t ∈ text, Text.NoReturn t) → Text.NoReturn (text.getD []) := by
    intro text all
    cases text with
    | none => exact noReturn_nil
    | some t => exact all t rfl
  unfold ofAttributes
  split
  · trivial
  · have start : Found.NoReturn ⟨none, none, false⟩ := ⟨nofun, nofun⟩
    refine (Ends.foldlM start fun found hfound a mem => ?_).bind
      fun found hfound => ⟨given _ hfound.leading, given _ hfound.trailing⟩
    refine (WrittenOption.ofAttribute_noReturn (h a mem)).bind fun options hoptions => ?_
    exact .foldlM hfound fun found hfound o mem => Found.add_noReturn hfound (hoptions o mem)

end ExtractOptions

/-! ## §3. Structs and conversions. -/

/-- Every line of a list. -/
def LinesNoReturn (lines : List Text) : Prop :=
  ∀ line ∈ lines, Text.NoReturn line

theorem Metadata.merge_noReturn {entries : List Metadata} (h : ∀ m ∈ entries, m.NoReturn) :
    ∀ m ∈ merge entries, m.NoReturn := by
  intro m mem
  rcases mem_merge mem with ⟨mem, _⟩ | rfl
  · exact h m mem
  · refine derive_noReturn fun trait memTrait => ?_
    obtain ⟨entry, memEntry, own⟩ := List.mem_flatMap.mp (firsts_sublist.subset memTrait)
    exact (h entry (mem_inCategory.mp memEntry).1).traits trait own

theorem Field.NoReturn.shownName {f : Field} (h : f.NoReturn) :
    Text.NoReturn (ShapeDifference.shownName f.name) := by
  unfold ShapeDifference.shownName
  cases named : f.name with
  | none => exact (by decide : Text.NoReturn "None")
  | some name => exact h.name name named

theorem Field.memberLines_noReturn {f : Field} {member : Field → Text} (h : f.NoReturn)
    (hm : (member f).NoReturn) : LinesNoReturn (memberLines member f) := by
  intro line mem
  obtain ⟨inner, memInner, rfl⟩ := List.mem_map.mp mem
  refine noReturn_append.mpr ⟨by decide, ?_⟩
  rcases List.mem_append.mp memInner with own | last
  · exact h.attrs inner own
  · rw [List.mem_singleton.mp last]
    exact noReturn_append.mpr ⟨hm, by decide⟩

theorem StructDecl.headLine_noReturn {struct : StructDecl} (h : struct.NoReturn) :
    struct.headLine.NoReturn := by
  unfold headLine
  dsimp only
  simp only [noReturn_append]
  refine ⟨⟨?_, by decide⟩, h.name⟩
  split
  · exact noReturn_nil
  · exact noReturn_append.mpr ⟨h.visibility, by decide⟩

/-- The lines of a struct. -/
theorem StructDecl.lines_noReturn {struct : StructDecl} (h : struct.NoReturn) :
    LinesNoReturn struct.lines := by
  have head := headLine_noReturn h
  have publicType : ∀ f ∈ struct.shape.fields, f.publicType.NoReturn := fun f mem =>
    noReturn_append.mpr ⟨by decide, (h.shape f mem).type⟩
  have publicMember : ∀ f ∈ struct.shape.fields, f.publicMember.NoReturn := by
    intro f mem
    have clean := h.shape f mem
    unfold Field.publicMember
    simp only [noReturn_append]
    exact ⟨⟨⟨by decide, clean.shownName⟩, by decide⟩, clean.type⟩
  have members : ∀ member : Field → Text, (∀ f ∈ struct.shape.fields, (member f).NoReturn) →
      LinesNoReturn (struct.shape.fields.flatMap (Field.memberLines member)) := by
    intro member clean line mem
    obtain ⟨f, memField, inner⟩ := List.mem_flatMap.mp mem
    exact Field.memberLines_noReturn (h.shape f memField) (clean f memField) line inner
  have joined : Text.NoReturn (join ", " (struct.shape.fields.map Field.publicType)) := by
    refine noReturn_join (by decide) fun part mem => ?_
    obtain ⟨f, memField, rfl⟩ := List.mem_map.mp mem
    exact publicType f memField
  have declaration : LinesNoReturn struct.declarationLines := by
    unfold declarationLines LinesNoReturn
    dsimp only
    split
    · exact List.forall_mem_singleton.mpr (noReturn_append.mpr ⟨head, by decide⟩)
    · split
      · simp only [List.cons_append, List.forall_mem_cons, List.forall_mem_append, noReturn_append]
        exact ⟨⟨head, by decide⟩, members _ publicType, by decide, List.forall_mem_nil _⟩
      · simp only [List.forall_mem_singleton, noReturn_append]
        exact ⟨⟨⟨head, by decide⟩, joined⟩, by decide⟩
    · simp only [List.cons_append, List.forall_mem_cons, List.forall_mem_append, noReturn_append]
      exact ⟨⟨head, by decide⟩, members _ publicMember, by decide, List.forall_mem_nil _⟩
  intro line mem
  rcases List.mem_append.mp mem with mem | mem
  · obtain ⟨m, memEntry, inner⟩ := List.mem_flatMap.mp mem
    exact (h.metadata m memEntry).text.lines line inner
  · exact declaration line mem

/-- The texts of a conversion. -/
structure Conversion.NoReturn (c : Conversion) : Prop where
  struct : c.struct.NoReturn
  enum : c.enum.NoReturn
  variant : c.variant.NoReturn
  shape : c.shape.NoReturn

theorem Shape.pattern_noReturn {shape : Shape} (h : shape.NoReturn) : shape.pattern.text.NoReturn := by
  unfold pattern
  split
  · exact (by decide : Text.NoReturn " \x7b\x7d")
  · have names : Text.NoReturn (join ", " ((List.range shape.fields.length).map Pattern.positionName)) := by
      refine noReturn_join (by decide) fun part mem => ?_
      obtain ⟨position, _, rfl⟩ := List.mem_map.mp mem
      exact noReturn_append.mpr ⟨by decide, ofNat_noReturn position⟩
    exact noReturn_append.mpr ⟨noReturn_append.mpr ⟨by decide, names⟩, by decide⟩
  · have names : Text.NoReturn (join ", " (shape.fields.map (ShapeDifference.shownName ·.name))) := by
      refine noReturn_join (by decide) fun part mem => ?_
      obtain ⟨f, memField, rfl⟩ := List.mem_map.mp mem
      exact (h f memField).shownName
    exact noReturn_append.mpr ⟨noReturn_append.mpr ⟨by decide, names⟩, by decide⟩

/-- The lines of a conversion. -/
theorem Conversion.lines_noReturn {c : Conversion} (h : c.NoReturn) : LinesNoReturn c.lines := by
  have pattern := Shape.pattern_noReturn h.shape
  unfold LinesNoReturn lines
  simp only [List.forall_mem_cons, noReturn_append, h.struct, h.enum, h.variant, pattern, and_true]
  -- only fixed texts are left
  exact ⟨by decide, by decide, by decide, by decide, by decide, by decide, by decide, by decide,
    by decide, by decide, by decide, by decide, List.forall_mem_nil _⟩

/-! ## §4. Blocks. -/

/-- The texts of a block that are printed. -/
structure Block.NoReturn (b : Block) : Prop where
  target : b.target.NoReturn
  structs : ∀ struct ∈ b.structs, struct.NoReturn
  conversions : ∀ c ∈ b.conversions, c.NoReturn

theorem Conversion.mem_put {c d : Conversion} {known : List Conversion} (mem : d ∈ put c known) :
    d = c ∨ d ∈ known := by
  induction known with
  | nil => exact .inl (List.mem_singleton.mp mem)
  | cons first rest ih =>
      unfold put at mem
      split at mem
      · exact (List.mem_cons.mp mem).imp_right (List.mem_cons_of_mem first)
      · rcases List.mem_cons.mp mem with rfl | mem
        · exact .inr List.mem_cons_self
        · exact (ih mem).imp_right (List.mem_cons_of_mem first)

theorem Conversion.mem_perStruct {d : Conversion} {conversions : List Conversion}
    (mem : d ∈ perStruct conversions) : d ∈ conversions := by
  have fold : ∀ (cs known : List Conversion), d ∈ cs.foldl (fun known c => put c known) known →
      d ∈ known ∨ d ∈ cs := by
    intro cs
    induction cs with
    | nil => exact fun known mem => .inl mem
    | cons c cs ih =>
        intro known mem
        rcases ih _ mem with found | later
        · rcases mem_put found with rfl | found
          · exact .inr List.mem_cons_self
          · exact .inl found
        · exact .inr (List.mem_cons_of_mem c later)
  exact (fold conversions [] mem).resolve_left List.not_mem_nil

namespace Block

theorem groups_noReturn {structs : List StructDecl} {conversions : List Conversion}
    (hs : ∀ struct ∈ structs, struct.NoReturn) (hc : ∀ c ∈ conversions, c.NoReturn) :
    ∀ group ∈ groups structs conversions, LinesNoReturn group := by
  induction structs generalizing conversions with
  | nil =>
      intro group mem
      obtain ⟨c, memConversion, rfl⟩ := List.mem_map.mp mem
      exact Conversion.lines_noReturn (hc c memConversion)
  | cons struct rest ih =>
      obtain ⟨first, others⟩ := List.forall_mem_cons.mp hs
      refine List.forall_mem_cons.mpr ⟨List.forall_mem_append.mpr ⟨?_, ?_⟩, ?_⟩
      · exact StructDecl.lines_noReturn first
      · cases own : (Conversion.take struct.name conversions).1 with
        | none =>
            rw [show conversions.find? (·.struct = struct.name) = none from own]
            exact fun _ mem => absurd mem List.not_mem_nil
        | some c =>
            rw [show conversions.find? (·.struct = struct.name) = some c from own]
            exact Conversion.lines_noReturn (hc c (List.mem_of_find?_eq_some own))
      · exact ih others fun c mem => hc c (List.mem_of_mem_filter mem)

theorem lines_noReturn {block : Block} (h : block.NoReturn) : LinesNoReturn block.lines := by
  have inner := groups_noReturn h.structs fun c mem => h.conversions c (Conversion.mem_perStruct mem)
  have body : LinesNoReturn (List.intercalate [[]]
      (groups block.structs (Conversion.perStruct block.conversions))) := by
    generalize groups block.structs (Conversion.perStruct block.conversions) = parts at inner
    induction parts with
    | nil => exact fun _ => nofun
    | cons part parts ih =>
        obtain ⟨first, rest⟩ := List.forall_mem_cons.mp inner
        cases parts with
        | nil => rwa [List.intercalate_singleton]
        | cons next parts =>
            rw [List.intercalate_cons_cons]
            exact List.forall_mem_append.mpr ⟨List.forall_mem_append.mpr
              ⟨first, List.forall_mem_singleton.mpr noReturn_nil⟩, ih rest⟩
  have marker : ∀ opening : Text, opening.NoReturn →
      Text.NoReturn (opening ++ generatorName ++ ": " ++ block.target ++ ">") := by
    intro opening clean
    simp only [noReturn_append]
    exact ⟨⟨⟨⟨clean, by decide⟩, by decide⟩, h.target⟩, by decide⟩
  exact List.forall_mem_append.mpr ⟨List.forall_mem_append.mpr
    ⟨List.forall_mem_singleton.mpr (marker "// <" (by decide)), body⟩,
    List.forall_mem_singleton.mpr (marker "// </" (by decide))⟩

/-- **The text of a block.** -/
theorem insertion_noReturn {block : Block} {indent : Text} (h : block.NoReturn) (hi : indent.NoReturn) :
    Text.NoReturn (block.insertion indent) := by
  refine noReturn_append.mpr ⟨by decide, noReturn_join (by decide) fun part mem => ?_⟩
  obtain ⟨line, memLine, rfl⟩ := List.mem_map.mp mem
  split
  · exact noReturn_nil
  · exact noReturn_append.mpr ⟨hi, lines_noReturn h line memLine⟩

theorem extractAll_noReturn {enum : EnumDecl} {options : ExtractOptions} (he : enum.NoReturn)
    (ho : options.NoReturn) : Gives Block.NoReturn (extractAll enum options) := by
  unfold extractAll
  refine (Gives.result (GeneratedNames.ofEnum enum options)).bind fun names hnames => ?_
  have made : ∀ pair ∈ enum.variants.filterMap (extracted? enum names),
      pair.1.NoReturn ∧ pair.2.NoReturn := by
    intro pair mem
    obtain ⟨v, memVariant, found⟩ := List.mem_filterMap.mp mem
    obtain ⟨metadata, merged, found⟩ := Option.bind_eq_some_iff.mp found
    obtain ⟨struct, named, ⟨⟩⟩ := Option.bind_eq_some_iff.mp found
    have clean := he.variants v memVariant
    have name : struct.NoReturn := by
      obtain ⟨w, memw, rfl⟩ := GeneratedNames.exists_of_identifier? hnames named
      exact noReturn_append.mpr ⟨noReturn_append.mpr ⟨ho.leading, (he.variants w memw).name⟩, ho.trailing⟩
    have entries : ∀ m ∈ metadata, m.NoReturn := by
      unfold Variant.structMetadata? at merged
      split at merged
      · exact nomatch merged
      · obtain rfl := Option.some.inj merged
        exact Metadata.merge_noReturn (List.forall_mem_append.mpr
          ⟨clean.metadata, fun m mem => he.metadata m (List.mem_of_mem_filter mem)⟩)
    exact ⟨⟨name, he.visibility, clean.shape, entries⟩, ⟨name, he.name, clean.name, clean.shape⟩⟩
  refine ⟨he.name, fun struct mem => ?_, fun c mem => ?_⟩
  · obtain ⟨pair, memPair, rfl⟩ := List.mem_map.mp mem
    exact (made pair memPair).1
  · dsimp only at mem
    split at mem
    · exact nomatch mem
    · obtain ⟨pair, memPair, rfl⟩ := List.mem_map.mp mem
      exact (made pair memPair).2

theorem bindOne_noReturn {struct : StructDecl} {enum : EnumDecl} {path : Text} {variant? : Option Text}
    {index : Nat} (hs : struct.NoReturn) (hp : path.NoReturn) (hv : ∀ v ∈ variant?, Text.NoReturn v) :
    Gives Block.NoReturn (bindOne struct enum path variant? index) := by
  unfold bindOne
  refine (Gives.anything _).bind fun _ _ => ⟨hs.name, nofun, List.forall_mem_singleton.mpr ?_⟩
  refine ⟨hs.name, hp, ?_, hs.shape⟩
  cases chosen : variant?.filter (!·.isEmpty) with
  | none => exact hs.name
  | some variant => exact hv variant (Option.filter_eq_some_iff.mp chosen).1

end Block

/-! ## §5. Transformations. -/

namespace BindingTarget

theorem variant?_noReturn {t : Text} (h : t.NoReturn) :
    ∀ variant ∈ variant? t, ∀ name ∈ variant, Text.NoReturn name := by
  intro variant found name named
  unfold variant? at found
  split at found
  · obtain rfl := Option.some.inj found
    exact nomatch named
  · next rest eq =>
    have clean : Text.NoReturn (rest.dropWhile isBlank) := by
      refine NoReturn.of_subset h (List.Subset.trans (List.dropWhile_suffix _).subset ?_)
      have tail : rest ⊆ t.trimStart := eq ▸ List.subset_cons_self _ rest
      exact List.Subset.trans tail (List.dropWhile_suffix _).subset
    dsimp only at found
    split at found
    · split at found
      · obtain rfl := Option.some.inj found
        exact nomatch named
      · exact nomatch found
    · next own eq =>
      have ownClean : own.NoReturn := by
        unfold Text.name? at eq
        split at eq
        · exact nomatch eq
        · exact Option.some.inj eq ▸ clean.take _
      have chosen : variant = some own := by
        have some_eq : ∀ {b : Bool}, (variant ∈ if b = true then some (some own) else none) →
            variant = some own := by
          intro b found
          cases b with
          | true => exact (Option.some.inj found).symm
          | false => exact nomatch found
        exact some_eq found
      rw [chosen] at named
      exact Option.some.inj named ▸ ownClean
  · exact nomatch found

theorem ofList?_noReturn {list : Text} (h : list.NoReturn) :
    ∀ pair ∈ ofList? list, pair.1.NoReturn ∧ ∀ name ∈ pair.2, Text.NoReturn name := by
  intro pair found
  unfold ofList? at found
  dsimp only at found
  generalize (if list.trimStart.startsWith "::" then 2 + blanks (list.trimStart.drop 2) else 0) = root at found
  by_cases none : pathLength (list.trimStart.drop root) = 0
  · rw [if_pos none] at found
    exact nomatch found
  · rw [if_neg none] at found
    obtain ⟨variant, eq, pair_eq⟩ := Option.bind_eq_some_iff.mp found
    obtain rfl := Option.some.inj pair_eq
    exact ⟨(h.trimStart.take _).unspaced, variant?_noReturn (h.trimStart.drop _) variant eq⟩

theorem ofAttributes?_noReturn {attrs : List Attribute} (h : ∀ a ∈ attrs, a.NoReturn) :
    Gives (fun target? => ∀ target ∈ target?, target.path.NoReturn ∧ ∀ v ∈ target.variant, Text.NoReturn v)
      (ofAttributes? attrs) := by
  unfold ofAttributes?
  split
  · exact nofun
  · next attr named =>
    have mem : attr ∈ Attribute.named StructDecl.directive attrs := named ▸ List.mem_singleton.mpr rfl
    split
    · next path variant found =>
      rintro target ⟨⟩
      obtain ⟨args, eq, inner⟩ := Option.bind_eq_some_iff.mp found
      exact ofList?_noReturn ((h attr (List.mem_of_mem_filter mem)).args args eq) _ inner
    · trivial
  · trivial

end BindingTarget

/-- The texts that a change puts into a source. -/
structure Change.NoReturn (change : Change) : Prop where
  deriveEdits : ∀ e ∈ change.deriveEdits, e.replacement.NoReturn
  indent : change.indent.NoReturn
  block : change.block.NoReturn

theorem Text.NoReturn.lineIndent {t : Text} (h : t.NoReturn) (i : Nat) : (t.lineIndent i).NoReturn :=
  (h.slice _ _).takeWhile _

namespace Change

variable {source : Text} {item : Item} {own schema : List EnumSource}

theorem edits_noReturn {change : Change} (h : change.NoReturn) :
    ∀ e ∈ change.edits source, e.replacement.NoReturn := by
  refine List.forall_mem_append.mpr ⟨List.forall_mem_append.mpr ⟨h.deriveEdits, fun e mem => ?_⟩, ?_⟩
  · obtain ⟨span, _, rfl⟩ := List.mem_map.mp mem
    unfold Text.removal
    dsimp only
    split <;> exact noReturn_nil
  · exact List.forall_mem_singleton.mpr (Block.insertion_noReturn h.block h.indent)

theorem ofEnum_noReturn (h : source.NoReturn) (hitem : item.NoReturn) :
    Gives Change.NoReturn (ofEnum source item) := by
  unfold ofEnum
  refine (EnumDecl.read_noReturn h hitem).bind fun enum henum => ?_
  refine (ExtractOptions.ofAttributes_noReturn hitem.attrs).bind fun options hoptions => ?_
  refine (Block.extractAll_noReturn henum hoptions).bind fun block hblock => ?_
  exact ⟨henum.deriveEdits, h.lineIndent _, hblock⟩

theorem ofBinding_noReturn {target : BindingTarget} (h : source.NoReturn) (hitem : item.NoReturn)
    (hp : target.path.NoReturn) (hv : ∀ v ∈ target.variant, Text.NoReturn v) :
    Gives Change.NoReturn (ofBinding source item target own schema) := by
  unfold ofBinding
  refine (StructDecl.read_noReturn h hitem).bind fun struct hstruct => ?_
  refine (Gives.anything (Catalog.resolve target.path own schema target.attr.start)).bind fun enum _ => ?_
  refine (Block.bindOne_noReturn hstruct hp hv).bind fun block hblock => ?_
  refine (Ends.filterMapM fun a mem => Attribute.withoutTrait?_noReturn (hitem.attrs a mem)).bind
    fun edits hedits => ?_
  exact ⟨hedits, h.lineIndent _, hblock⟩

theorem ofItem?_noReturn (h : source.NoReturn) (hitem : item.NoReturn) :
    Gives (fun change? => ∀ change ∈ change?, change.NoReturn) (ofItem? source own schema item) := by
  unfold ofItem?
  refine (Gives.anything (EnumDecl.isMarked source item)).bind fun marked _ => ?_
  split
  · refine (ofEnum_noReturn h hitem).bind fun change hchange => ?_
    rintro made ⟨⟩
    exact hchange
  split
  · exact nofun
  refine (BindingTarget.ofAttributes?_noReturn hitem.attrs).bind fun target? htarget => ?_
  cases target? with
  | none => exact nofun
  | some target =>
      obtain ⟨hp, hv⟩ := htarget target rfl
      refine (ofBinding_noReturn h hitem hp hv).bind fun change hchange => ?_
      rintro made ⟨⟩
      exact hchange

end Change

theorem Text.applyEdits_noReturn {t : Text} {edits : List Edit} (h : t.NoReturn)
    (he : ∀ e ∈ edits, e.replacement.NoReturn) : (t.applyEdits edits).NoReturn := by
  have go : ∀ (es : List Edit) (kept : Nat), (∀ e ∈ es, e.replacement.NoReturn) →
      Text.NoReturn (applyEdits.go t kept es) := by
    intro es
    induction es with
    | nil => exact fun kept _ => h.drop kept
    | cons e es ih =>
        intro kept clean
        obtain ⟨first, rest⟩ := List.forall_mem_cons.mp clean
        exact noReturn_append.mpr ⟨noReturn_append.mpr ⟨h.slice kept e.start, first⟩, ih _ rest⟩
  exact go _ 0 fun e mem => he e ((sorted_perm edits).mem_iff.mp mem)

/-- **A transformed source.** -/
theorem transform_noReturn {source : Text} (h : source.NoReturn) (schema : List EnumSource)
    (label : Text) : Gives (fun rendered => rendered.text.NoReturn) (transform source schema label) := by
  unfold transform plan
  refine Ends.bind (P := fun changes => ∀ change ∈ changes, change.NoReturn) ?_ fun changes hchanges => ?_
  · refine (Text.items_noReturn h).bind fun items hitems => ?_
    exact .filterMapM fun item mem => Change.ofItem?_noReturn h (hitems item mem)
  · refine Text.applyEdits_noReturn h fun e mem => ?_
    obtain ⟨change, memChange, inner⟩ := List.mem_flatMap.mp mem
    exact Change.edits_noReturn (hchanges change memChange) e inner

/-! ## §6. Files. -/

/-- A file is generated for a source whose text has no carriage return, and no label has one. -/
theorem GeneratedFile.generate_noReturn {source : SourceFile} {schemas : List SourceFile}
    (h : source.text.NoReturn) (hl : source.label.NoReturn) (hs : ∀ file ∈ schemas, file.label.NoReturn) :
    Gives (fun file => file.content.NoReturn) (generate source schemas) := by
  unfold generate
  refine (Gives.anything (schemas.mapM schemaEnums)).bind fun enums _ => ?_
  refine (transform_noReturn h enums.flatten source.label).bind fun rendered hrendered => ?_
  have labels : Text.NoReturn (join ", " (schemas.map (·.label))) := by
    refine noReturn_join (by decide) fun part mem => ?_
    obtain ⟨file, memFile, rfl⟩ := List.mem_map.mp mem
    exact hs file memFile
  have digest : Text.NoReturn (digest source.text (schemas.map (·.text))) := hexDigest_noReturn _
  have lines : LinesNoReturn (header source.label (schemas.map (·.label))
      (GeneratedFile.digest source.text (schemas.map (·.text)))) := by
    unfold header LinesNoReturn
    simp only [List.forall_mem_append, List.forall_mem_cons, noReturn_append]
    refine ⟨⟨⟨by decide, by decide, ⟨by decide, hl⟩, List.forall_mem_nil _⟩, ?_⟩, ⟨by decide, digest⟩,
      by decide, List.forall_mem_nil _⟩
    split
    · exact List.forall_mem_nil _
    · exact List.forall_mem_singleton.mpr (noReturn_append.mpr ⟨by decide, labels⟩)
  exact noReturn_append.mpr ⟨noReturn_append.mpr ⟨noReturn_join (by decide) lines, by decide⟩, hrendered⟩

end EnumExtract
