/-
  EnumExtract.Proofs.Outcome
  ────────────────────────────────
  How the generation of a file ends: with the file, or with a fault that says
  where it was met.

  A fault without a label points into the source, also where the cause was met
  in an enum of a schema file; a fault with a label points into the first
  schema file that cannot be scanned.

  Main results:
    • `EnumDecl.read_within`, `StructDecl.read_within`   declarations,
    • `transform_within`                                 a whole source,
    • `generate_outcome`                                 a source with its schema files.
-/
import EnumExtract.GeneratedFile
import EnumExtract.Proofs.Extraction
import EnumExtract.Proofs.Faults

namespace EnumExtract

open Cursor

variable {n : Nat}

/-! ## §1. Metadata, fields and shapes. -/

theorem Metadata.ofAttribute_within {a : Attribute} (h : a.EndsBy n) :
    Within n (fun _ => True) (Metadata.ofAttribute a) := by
  unfold Metadata.ofAttribute
  split
  · trivial
  · split
    · next args eq =>
      split
      · have ends : (Text.cursor args.text 0).EndsBy n := by
          have inside := h.args args eq
          have whole := endsBy_cursor (Nat.zero_le args.text.length)
          unfold EndsBy at whole ⊢
          omega
        refine (pieces_within ends _).within.bind fun pieces starts => ?_
        refine (Ends.mapM (Q := fun _ => True) fun p mem => ?_).bind fun _ _ => trivial
        exact (withoutComments_within (starts p mem)).within.bind fun _ _ => trivial
      · trivial
    · trivial

theorem Attribute.withoutTrait?_within {source trait : Text} {a : Attribute} (h : a.EndsBy n) :
    Within n (fun _ => True) (a.withoutTrait? source trait) := by
  unfold Attribute.withoutTrait?
  refine (Metadata.ofAttribute_within h).bind fun entry _ => ?_
  split
  · trivial
  · dsimp only
    split
    · trivial
    · split <;> trivial

namespace Field

theorem read_within {named : Bool} {p : Piece} (h : p.start.EndsBy n) :
    Within n (fun _ => True) (read named p) := by
  unfold read
  refine (readPrelude_within h).within.bind fun ⟨attrs, head⟩ ⟨_, hhead⟩ => ?_
  refine (readVisibility_within hhead).within.bind fun ⟨_, behind⟩ hbehind => ?_
  refine (skipTrivia_within hbehind).within.bind fun place hplace => ?_
  have fits : (label? (place.upTo p.stop)).elim 0 (·.2) ≤ place.ahead.length := by
    cases found : label? (place.upTo p.stop) with
    | none => exact Nat.zero_le _
    | some label => exact Nat.le_trans (label_fits found) (List.take_prefix _ _).length_le
  have hstart := hplace.advance fits
  dsimp only
  split
  · exact ⟨rfl, h.offset_le⟩
  · split
    · exact ⟨rfl, hplace.offset_le⟩
    · refine (withoutComments_within hstart).within.bind fun written _ => ?_
      split
      · exact ⟨rfl, hstart.offset_le⟩
      · trivial

theorem readList_within {opening : Cursor} (h : opening.EndsBy n) (more : opening.ahead ≠ [])
    (close : Nat) (named : Bool) : Within n (fun _ => True) (readList opening close named) :=
  (pieces_within (h.advance_one more) close).within.bind fun _ starts =>
    (Ends.mapM (Q := fun _ => True) fun p mem => read_within (starts p mem)).imp fun _ _ => trivial

end Field

theorem Shape.classify_within {fields : List Field} {index : Nat} (le : index ≤ n) :
    Within n (fun _ => True) (Shape.classify fields index) := by
  unfold Shape.classify
  split
  · trivial
  · split
    · trivial
    · split
      · trivial
      · exact .fault le

/-! ## §2. Variants. -/

namespace Variant

theorem Directives.listedAttrs_within {source : Text} {a : Attribute} (h : a.EndsBy source.length) :
    Within source.length (fun _ => True) (listedAttrs source a) := by
  unfold listedAttrs
  split
  · exact .fault h.start
  · next args eq =>
    have start : args.start ≤ source.length := Nat.le_trans (Nat.le_add_right _ _) (h.args args eq)
    refine (readPrelude_within (endsBy_cursor start)).within.bind fun ⟨inner, place⟩ ⟨hinner, hplace⟩ => ?_
    refine (skipTrivia_within hplace).within.bind fun behind _ => ?_
    dsimp only
    split
    · exact ⟨rfl, hplace.offset_le⟩
    · exact (Ends.mapM (Q := fun _ => True) fun a mem => Metadata.ofAttribute_within (hinner a mem)).imp
        fun _ _ => trivial

theorem Directives.add_within {source : Text} {d : Directives} {a : Attribute}
    (h : a.EndsBy source.length) : Within source.length (fun _ => True) (add source d a) := by
  unfold add
  dsimp only
  split
  · trivial
  · split
    · split
      · exact ⟨rfl, h.start⟩
      · exact (listedAttrs_within h).bind fun _ _ => trivial
    · split
      · exact (Metadata.ofAttribute_within h).bind fun _ _ => trivial
      · trivial

theorem readFields_within {place : Cursor} (h : place.EndsBy n) (stop : Nat) :
    Within n (fun found => found.2.EndsBy n) (readFields place stop) := by
  unfold readFields
  split
  · next opens =>
    have more : place.ahead ≠ [] := by
      rw [Bool.and_eq_true, Bool.or_eq_true] at opens
      rcases opens.2 with sees | sees <;> exact more_of_sees sees
    refine (closing_within h).within.bind fun close ⟨hclose, last⟩ => ?_
    refine (Field.readList_within h more _ _).bind fun fields _ => ?_
    exact (skipTrivia_within (hclose.advance_one last)).within.bind fun rest hrest => hrest
  · exact h

theorem read_within {source : Text} {p : Piece} (h : p.start.EndsBy source.length) :
    Within source.length (fun v => v.index ≤ source.length) (read source p) := by
  unfold read
  refine (readPrelude_within h).within.bind fun ⟨attrs, head⟩ ⟨hattrs, hhead⟩ => ?_
  refine (readIdentifier_within hhead).within.bind fun ⟨name, behind⟩ hbehind => ?_
  refine (skipTrivia_within hbehind).within.bind fun place hplace => ?_
  refine (readFields_within hplace _).bind fun ⟨fields, rest⟩ hrest => ?_
  dsimp only
  split
  · exact ⟨rfl, hrest.offset_le⟩
  · refine (Ends.foldlM (Q := fun _ => True) trivial fun d _ a mem =>
      Directives.add_within (hattrs a mem)).bind fun directives _ => ?_
    exact (Shape.classify_within hhead.offset_le).bind fun _ _ => hhead.offset_le

theorem readBody_within {source : Text} {opening : Cursor} (h : opening.EndsBy source.length)
    (more : opening.ahead ≠ []) (close : Nat) :
    Within source.length (fun vs => ∀ v ∈ vs, v.index ≤ source.length) (readBody source opening close) := by
  refine (pieces_within (h.advance_one more) close).within.bind fun pieces starts => ?_
  refine .foldlM nofun fun known hknown p mem => ?_
  refine (read_within (starts p mem)).bind fun v hv => ?_
  split
  · exact ⟨rfl, hv⟩
  · intro w mem
    rcases List.mem_append.mp mem with mem | mem
    · exact hknown w mem
    · rwa [List.mem_singleton.mp mem]

end Variant

/-! ## §3. Declarations. -/

namespace EnumDecl

theorem addAttribute_within {source : Text} {kept : List Metadata × List Edit} {a : Attribute}
    (h : a.EndsBy n) : Within n (fun _ => True) (addAttribute source kept a) := by
  unfold addAttribute
  split
  · trivial
  · refine (Attribute.withoutTrait?_within h).bind fun edit _ => ?_
    cases edit with
    | some edit => trivial
    | none => exact (Metadata.ofAttribute_within h).bind fun _ _ => trivial

theorem isMarked_within {source : Text} {item : Item} (h : item.EndsBy n) :
    Within n (fun _ => True) (isMarked source item) := by
  unfold isMarked
  split
  · refine .anyM fun a mem => ?_
    split
    · trivial
    · exact (Attribute.withoutTrait?_within (h.attrs a mem)).bind fun _ _ => trivial
  · trivial

/-- The variants of an enum are named within its text. -/
theorem read_within {source : Text} {item : Item} (h : item.EndsBy source.length) :
    Within source.length (fun enum => ∀ v ∈ enum.variants, v.index ≤ source.length)
      (read source item) := by
  unfold read
  refine (skipTrivia_within (endsBy_cursor h.bodyIndex)).within.bind fun body hbody => ?_
  dsimp only
  split
  · exact ⟨rfl, hbody.offset_le⟩
  split
  · exact ⟨rfl, hbody.offset_le⟩
  next opens =>
    have sees : body.sees "\x7b" = true := by simpa using opens
    refine (closing_within hbody).within.bind fun close _ => ?_
    refine (Variant.readBody_within hbody (more_of_sees sees) _).bind fun variants hvariants => ?_
    exact (Ends.foldlM (Q := fun _ => True) trivial fun kept _ a mem =>
      addAttribute_within (h.attrs a mem)).bind fun _ _ => hvariants

end EnumDecl

namespace StructDecl

theorem readBody_within {body : Cursor} {name : Text} (h : body.EndsBy n) :
    Within n (fun _ => True) (readBody body name) := by
  unfold readBody
  split
  · trivial
  · split
    · next sees =>
      refine (closing_within h).within.bind fun close ⟨hclose, last⟩ => ?_
      refine (Field.readList_within h (more_of_sees sees) _ _).bind fun fields _ => ?_
      refine (skipTrivia_within (hclose.advance_one last)).within.bind fun semicolon hsemicolon => ?_
      split
      · exact ⟨rfl, hsemicolon.offset_le⟩
      · trivial
    · split
      · next sees =>
        refine (closing_within h).within.bind fun close _ => ?_
        exact (Field.readList_within h (more_of_sees sees) _ _).bind fun _ _ => trivial
      · exact h.fail

theorem read_within {source : Text} {item : Item} (h : item.EndsBy source.length) :
    Within source.length (fun _ => True) (read source item) := by
  unfold read
  refine (skipTrivia_within (endsBy_cursor h.bodyIndex)).within.bind fun body hbody => ?_
  dsimp only
  split
  · exact ⟨rfl, hbody.offset_le⟩
  refine (readBody_within hbody).bind fun ⟨fields, stop⟩ _ => ?_
  refine (Shape.classify_within hbody.offset_le).bind fun shape _ => ?_
  refine (Ends.mapM (Q := fun _ => True) fun a mem => ?_).bind fun _ _ => trivial
  exact Metadata.ofAttribute_within (h.attrs a (List.mem_of_mem_filter mem))

end StructDecl

/-! ## §4. Options and bindings. -/

namespace WrittenOption

theorem at?_index {place : Cursor} {o : WrittenOption} {length : Nat}
    (h : at? place = some (o, length)) : o.index = place.offset + Text.blanks place.ahead := by
  unfold at? at h
  dsimp only at h
  split at h
  · cases h
  · cases h
    rfl

theorem readList_within {c : Cursor} (h : c.EndsBy n) :
    Within n (fun options => ∀ o ∈ options, o.index ≤ n) (readList c) := by
  have reversed : ∀ {options : List WrittenOption}, (∀ o ∈ options, o.index ≤ n) →
      ∀ o ∈ options.reverse, o.index ≤ n := fun all o mem => all o (List.mem_reverse.mp mem)
  refine walk_within (I := fun options => ∀ o ∈ options, o.index ≤ n) h nofun
    (fun options place hoptions ends _ => ?_) fun _ _ hoptions _ => reversed hoptions
  unfold readList.step
  split
  · exact reversed hoptions
  · split
    · next found =>
      refine List.forall_mem_cons.mpr ⟨?_, hoptions⟩
      have short : Text.blanks place.ahead ≤ place.ahead.length := (List.takeWhile_prefix _).length_le
      unfold EndsBy at ends
      rw [at?_index found]
      omega
    · exact ends.fail

theorem ofAttribute_within {a : Attribute} (h : a.EndsBy n) :
    Within n (fun options => ∀ o ∈ options, o.index ≤ n) (ofAttribute a) := by
  unfold ofAttribute
  split
  · split
    · next args eq => exact readList_within (h.args args eq)
    · exact nofun
  · split
    · exact List.forall_mem_singleton.mpr h.start
    · exact nofun

theorem nameValue_within {o : WrittenOption} (le : o.index ≤ n) : Within n (fun _ => True) o.nameValue := by
  unfold nameValue
  split
  · split
    · trivial
    · exact .fault le
  · exact .fault le

end WrittenOption

namespace ExtractOptions

theorem Found.add_within {found : Found} {o : WrittenOption} (le : o.index ≤ n) :
    Within n (fun _ => True) (found.add o) := by
  have value := WrittenOption.nameValue_within le
  unfold Found.add
  dsimp only
  split
  · split
    · exact ⟨rfl, le⟩
    · exact value.bind fun _ _ => trivial
  · split
    · split
      · exact ⟨rfl, le⟩
      · exact value.bind fun _ _ => trivial
    · split
      · split
        · exact ⟨rfl, le⟩
        · split
          · exact ⟨rfl, le⟩
          · trivial
      · exact .fault le

theorem ofAttributes_within {attrs : List Attribute} (h : ∀ a ∈ attrs, a.EndsBy n) :
    Within n (fun _ => True) (ofAttributes attrs) := by
  unfold ofAttributes
  split
  · next first second rest named =>
    have mem : second ∈ Attribute.named EnumDecl.marker attrs := by
      rw [named]
      exact List.mem_cons_of_mem _ List.mem_cons_self
    exact .fault (h second (List.mem_of_mem_filter mem)).start
  · refine (Ends.foldlM (Q := fun _ => True) trivial fun found _ a mem => ?_).bind fun _ _ => trivial
    refine (WrittenOption.ofAttribute_within (h a mem)).bind fun options hoptions => ?_
    exact .foldlM trivial fun found _ o mem => Found.add_within (hoptions o mem)

end ExtractOptions

theorem BindingTarget.ofAttributes?_within {attrs : List Attribute} (h : ∀ a ∈ attrs, a.EndsBy n) :
    Within n (fun target? => ∀ target ∈ target?, target.attr ∈ attrs) (ofAttributes? attrs) := by
  have bound : ∀ a ∈ Attribute.named StructDecl.directive attrs, a ∈ attrs :=
    fun a mem => List.mem_of_mem_filter mem
  unfold ofAttributes?
  split
  · exact nofun
  · next attr named =>
    rw [named] at bound
    have mem := bound attr (List.mem_singleton.mpr rfl)
    split
    · rintro target ⟨⟩
      exact mem
    · exact .fault (h attr mem).start
  · next first second rest named =>
    rw [named] at bound
    exact .fault (h second (bound second (List.mem_cons_of_mem _ List.mem_cons_self))).start

/-! ## §5. Catalogs. -/

namespace Catalog

theorem mem_of_lookup? {path : Text} {catalog : List EnumSource} {source : EnumSource}
    (h : lookup? path catalog = .ok (some source)) : source ∈ catalog := by
  have sub : ∀ s ∈ candidates (dropRoots (Text.segments path)) catalog, s ∈ catalog := by
    intro s mem
    unfold candidates at mem
    dsimp only at mem
    split at mem
    · exact List.mem_of_mem_filter mem
    · split at mem
      · exact List.mem_of_mem_filter mem
      · exact List.mem_of_mem_filter (List.mem_of_mem_filter mem)
  unfold lookup? at h
  split at h
  · cases h
  · next found =>
    cases h
    exact sub source (by rw [found]; exact List.mem_singleton.mpr rfl)
  · cases h

theorem reportAt_within {α : Type} {P : α → Prop} {x : Except Cause α} {index : Nat} (le : index ≤ n)
    (h : ∀ a, x = .ok a → P a) : Within n P (reportAt index x) := by
  cases x with
  | ok a => exact h a rfl
  | error cause => exact .fault le

theorem readSchema_within {source : EnumSource} {index : Nat} (le : index ≤ n) :
    Within n (fun _ => True) (readSchema source index) := by
  unfold readSchema
  split
  · trivial
  · exact .fault le

/-- A binding is resolved with its faults in the source: an enum of the source is read there, and
what is met in a schema file is reported at the binding. -/
theorem resolve_within {path source : Text} {own schema : List EnumSource} {index : Nat}
    (hown : ∀ e ∈ own, e.text = source ∧ e.item.EndsBy source.length) (le : index ≤ source.length) :
    Within source.length (fun _ => True) (resolve path own schema index) := by
  unfold resolve
  refine (reportAt_within le fun _ => id).bind fun found hfound => ?_
  cases found with
  | some e =>
      obtain ⟨text, ends⟩ := hown e (mem_of_lookup? hfound)
      dsimp only
      rw [text]
      exact (EnumDecl.read_within ends).imp fun _ _ => trivial
  | none =>
      refine (reportAt_within (P := fun _ => True) le fun _ _ => trivial).bind fun found _ => ?_
      cases found with
      | some e => exact readSchema_within le
      | none => exact Within.fault le

end Catalog

theorem EnumDecl.matching_within {enum : EnumDecl} {struct : StructDecl} {variant : Text} {index : Nat}
    (le : index ≤ n) : Within n (fun _ => True) (enum.matching struct variant index) := by
  unfold EnumDecl.matching
  split
  · exact .fault le
  · split
    · trivial
    · exact .fault le

/-! ## §6. Blocks and changes. -/

theorem GeneratedNames.add_within {enum : Text} {options : ExtractOptions} {names : List (Text × Text)}
    {variant : Variant} (le : variant.index ≤ n) : Within n (fun _ => True) (add enum options names variant) := by
  unfold add
  dsimp only
  split
  · exact .fault le
  · split
    · exact .fault le
    · trivial

theorem Block.extractAll_within {enum : EnumDecl} {options : ExtractOptions}
    (h : ∀ v ∈ enum.variants, v.index ≤ n) : Within n (fun _ => True) (extractAll enum options) := by
  unfold extractAll GeneratedNames.ofEnum
  refine Ends.bind (P := fun _ => True) ?_ fun _ _ => trivial
  refine (Ends.foldlM (Q := fun _ => True) trivial fun names _ v mem => ?_).bind fun _ _ => trivial
  exact GeneratedNames.add_within (h v (List.mem_of_mem_filter mem))

theorem Block.bindOne_within {struct : StructDecl} {enum : EnumDecl} {path : Text} {variant? : Option Text}
    {index : Nat} (le : index ≤ n) : Within n (fun _ => True) (bindOne struct enum path variant? index) :=
  (EnumDecl.matching_within le).bind fun _ _ => trivial

namespace Change

variable {source : Text} {item : Item} {own schema : List EnumSource}

theorem ofEnum_within (h : item.EndsBy source.length) :
    Within source.length (fun _ => True) (ofEnum source item) := by
  unfold ofEnum
  refine (EnumDecl.read_within h).bind fun enum hvariants => ?_
  refine (ExtractOptions.ofAttributes_within h.attrs).bind fun options _ => ?_
  exact (Block.extractAll_within hvariants).bind fun _ _ => trivial

theorem ofBinding_within {target : BindingTarget} (h : item.EndsBy source.length)
    (hown : ∀ e ∈ own, e.text = source ∧ e.item.EndsBy source.length) (mem : target.attr ∈ item.attrs) :
    Within source.length (fun _ => True) (ofBinding source item target own schema) := by
  have start := (h.attrs _ mem).start
  unfold ofBinding
  refine (StructDecl.read_within h).bind fun struct _ => ?_
  refine (Catalog.resolve_within hown start).bind fun enum _ => ?_
  refine (Block.bindOne_within start).bind fun block _ => ?_
  refine (Ends.filterMapM (Q := fun _ => True) fun a mem => ?_).bind fun _ _ => trivial
  exact (Attribute.withoutTrait?_within (h.attrs a mem)).imp fun _ _ _ _ => trivial

theorem ofItem?_within (h : item.EndsBy source.length)
    (hown : ∀ e ∈ own, e.text = source ∧ e.item.EndsBy source.length) :
    Within source.length (fun _ => True) (ofItem? source own schema item) := by
  unfold ofItem?
  refine (EnumDecl.isMarked_within h).bind fun marked _ => ?_
  split
  · exact (ofEnum_within h).bind fun _ _ => trivial
  split
  · trivial
  refine (BindingTarget.ofAttributes?_within h.attrs).bind fun target? htarget => ?_
  cases target? with
  | none => trivial
  | some target => exact (ofBinding_within h hown (htarget target rfl)).bind fun _ _ => trivial

end Change

/-- **The faults of a transformation lie in the source.** -/
theorem transform_within (source : Text) (schema : List EnumSource) (label : Text) :
    Within source.length (fun _ => True) (transform source schema label) := by
  unfold transform plan
  refine Ends.bind (P := fun _ => True) ?_ fun _ _ => trivial
  refine (Text.items_within source).within.bind fun items hitems => ?_
  have hown : ∀ e ∈ EnumSource.ofItems label source items, e.text = source ∧ e.item.EndsBy source.length := by
    intro e mem
    obtain ⟨item, memItem, rfl⟩ := List.mem_map.mp mem
    exact ⟨rfl, hitems item (List.mem_of_mem_filter memItem)⟩
  refine (Ends.filterMapM (Q := fun _ => True) fun item mem => ?_).imp fun _ _ => trivial
  exact (Change.ofItem?_within (hitems item mem) hown).imp fun _ _ _ _ => trivial

/-! ## §7. Files. -/

/-- Where a fault is reported: without a label in the source, all schema files having been
scanned; with one in the first schema file that cannot be scanned. -/
inductive Fault.Reported (source : SourceFile) (schemas : List SourceFile) (fault : Fault) : Prop where
  | inSource (noLabel : fault.source = none) (index : fault.index ≤ source.text.length)
      (scanned : ∀ file ∈ schemas, ∃ items, file.text.items = .ok items) : Reported source schemas fault
  | inSchema {before after : List SourceFile} {file : SourceFile}
      (schemas_eq : schemas = before ++ file :: after)
      (scanned : ∀ file ∈ before, ∃ items, file.text.items = .ok items)
      (label : fault.source = some file.label)
      (unscanned : file.text.items = .error { fault with source := none })
      (index : fault.index ≤ file.text.length) : Reported source schemas fault

namespace GeneratedFile

variable {file source : SourceFile} {schemas : List SourceFile} {fault : Fault}

theorem schemaEnums_ok {enums : List EnumSource} (h : schemaEnums file = .ok enums) :
    ∃ items, file.text.items = .ok items := by
  unfold schemaEnums EnumSource.ofFile at h
  cases scan : file.text.items with
  | ok items => exact ⟨items, rfl⟩
  | error fault =>
      rw [scan] at h
      cases h

theorem schemaEnums_error (h : schemaEnums file = .error fault) :
    file.text.items = .error { fault with source := none } ∧ fault.source = some file.label
      ∧ fault.index ≤ file.text.length := by
  have within := (Text.items_within file.text).within
  unfold schemaEnums EnumSource.ofFile at h
  cases scan : file.text.items with
  | ok items =>
      rw [scan] at h
      cases h
  | error met =>
      rw [scan] at h within
      cases h
      obtain ⟨unlabelled, index⟩ := within
      obtain ⟨cause, index', label⟩ := met
      obtain rfl : label = none := unlabelled
      exact ⟨rfl, rfl, index⟩

theorem mapM_schemaEnums_error (h : schemas.mapM schemaEnums = .error fault) :
    fault.Reported source schemas := by
  obtain ⟨before, file, after, rfl, all, met⟩ := exists_of_mapM_error h
  obtain ⟨unscanned, label, index⟩ := schemaEnums_error met
  refine .inSchema rfl (fun other mem => ?_) label unscanned index
  obtain ⟨enums, ok⟩ := all other mem
  exact schemaEnums_ok ok

theorem generate_error (h : generate source schemas = .error fault) : fault.Reported source schemas := by
  rcases bind_error_iff.mp h with unscanned | ⟨enums, scanned, h⟩
  · exact mapM_schemaEnums_error unscanned
  · rcases bind_error_iff.mp h with met | ⟨rendered, _, ⟨⟩⟩
    have within := transform_within source.text enums.flatten source.label
    rw [met] at within
    refine .inSource within.1 within.2 fun file mem => ?_
    obtain ⟨found, _, ok⟩ := exists_of_forall₂_left (mapM_ok_iff.mp scanned) mem
    exact schemaEnums_ok ok

/-- **Generation ends with a file or with a fault that is reported where it was met**, and no name
is looked up that has not been chosen. -/
theorem generate_outcome (source : SourceFile) (schemas : List SourceFile) :
    ((∃ file, generate source schemas = .ok file)
      ∨ ∃ fault, generate source schemas = .error fault ∧ fault.Reported source schemas)
    ∧ ∀ enum options names, GeneratedNames.ofEnum enum options = .ok names →
        ∀ v ∈ enum.variants, v.excluded = false → (names.identifier? v.name).isSome = true := by
  refine ⟨?_, fun enum options names chosen v mem extracted => ?_⟩
  · cases ending : generate source schemas with
    | ok file => exact .inl ⟨file, rfl⟩
    | error fault => exact .inr ⟨fault, rfl, generate_error ending⟩
  · obtain ⟨pairs, _, distinct⟩ := GeneratedNames.ofEnum_ok chosen
    have found := GeneratedNames.identifier?_entries pairs distinct
      (List.mem_filter.mpr ⟨mem, by rw [extracted]; rfl⟩)
    exact Option.isSome_of_eq_some found

/-- An enum that is never closed. -/
def unclosed : SourceFile :=
  ⟨"a.rs", "#[extract_variant] enum E \x7b A"⟩

/-- An enum with two variants. -/
def twoVariants : EnumDecl :=
  ⟨"E", [], [⟨"A", ⟨.unit, []⟩, [], false, 9, []⟩, ⟨"B", ⟨.unit, []⟩, [], false, 12, []⟩], [], 0, 15, [], []⟩

theorem unclosed_outcome :
    (∃ fault, generate unclosed [] = .error fault ∧ fault.Reported unclosed [])
      ∧ GeneratedNames.ofEnum twoVariants ⟨"My", [], false⟩
          = .ok ⟨"E", [("A", "MyA"), ("B", "MyB")]⟩
      ∧ ((GeneratedNames.mk "E" [("A", "MyA"), ("B", "MyB")]).identifier? "B").isSome = true := by
  obtain ⟨outcome, lookups⟩ := generate_outcome unclosed []
  have chosen : GeneratedNames.ofEnum twoVariants ⟨"My", [], false⟩
      = .ok ⟨"E", [("A", "MyA"), ("B", "MyB")]⟩ := rfl
  refine ⟨outcome.resolve_left ?_, chosen,
    lookups _ _ _ chosen _ (List.mem_cons_of_mem _ List.mem_cons_self) rfl⟩
  rintro ⟨file, ok⟩
  have fails : (match generate unclosed [] with
      | .ok _ => false
      | .error _ => true) = true := by decide +kernel
  rw [ok] at fails
  cases fails

end GeneratedFile

end EnumExtract
