/-
  EnumExtract.Proofs.Transformation
  ────────────────────────────────
  What a transformation does to a source.

  Each annotated declaration gets one change, and the change is what its
  annotation asks for: its directives are taken out, its marked derives are
  shortened, and its block is put behind its end.  The edits of all changes
  together lie apart, so that making them rewrites the source character by
  character: what no edit covers stays, once and in order.

  Where a raw string opens in the name of a declaration, the scan and the
  reader of an enum no longer agree on what is code, and edits may overlap.

  Main results:
    • `plan_ok`              one change for each annotated declaration,
    • `edits_apart`          the edits of all changes lie apart,
    • `transform_rewrites`   a transformed source is the source with its edits.
-/
import EnumExtract.Proofs.Apart
import EnumExtract.Proofs.Edits

namespace EnumExtract

open Cursor

/-! ## §1. One change. -/

namespace Change

/-- The change is what the annotation of `item` asks for. -/
structure MadeFor (source : Text) (item : Item) (change : Change) : Prop where
  /-- Every derive that names the marker is shortened. -/
  derives : List.Forall₂ (Attribute.Shortens source item.markerTrait) item.markedDerives
    change.deriveEdits
  /-- Every directive is taken out. -/
  directives : ∃ attrs, item.directives source = .ok attrs ∧ change.directives = attrs.map (·.span)
  /-- The block goes to the end of the declaration. -/
  stop : item.EndsAt source change.stop
  indent : change.indent = source.lineIndent item.start
  target : change.block.target = item.name
  /-- The block of an enum is made of the enum as it is declared. -/
  extracts : item.kind = .enum → ∃ enum options, EnumDecl.read source item = .ok enum
    ∧ ExtractOptions.ofAttributes item.attrs = .ok options
    ∧ Block.extractAll enum options = .ok change.block

variable {source : Text} {item : Item} {change : Change}

theorem ofEnum_ok (kind : item.kind = .enum) (h : ofEnum source item = .ok change) :
    change.MadeFor source item := by
  rw [ofEnum] at h
  obtain ⟨enum, henum, h⟩ := bind_ok_iff.mp h
  obtain ⟨options, hoptions, h⟩ := bind_ok_iff.mp h
  obtain ⟨block, hblock, h⟩ := bind_ok_iff.mp h
  cases h
  obtain ⟨body, close, pieces, parts⟩ := EnumDecl.read_ok_iff.mp henum
  have trait : item.markerTrait = EnumDecl.marker := by rw [Item.markerTrait, kind]
  refine ⟨?_, ?_, parts.endsAt, rfl, ?_, fun _ => ⟨enum, options, henum, hoptions, hblock⟩⟩
  · rw [Item.markedDerives, trait]
    exact parts.deriveEdits_ok
  · obtain ⟨preludes, _, hinner, eq⟩ := parts.preludes
    refine ⟨_, by rw [Item.directives, kind]; exact bind_ok_iff.mpr ⟨_, hinner, rfl⟩, ?_⟩
    rw [List.map_append, ← eq, Item.ownAttributes, kind]
    exact parts.directives
  · rw [Block.extractAll] at hblock
    obtain ⟨_, _, hblock⟩ := bind_ok_iff.mp hblock
    cases hblock
    exact parts.name

theorem ofAttributes?_some {attrs : List Attribute} {target : BindingTarget}
    (h : BindingTarget.ofAttributes? attrs = .ok (some target)) :
    Attribute.named StructDecl.directive attrs = [target.attr] := by
  rw [BindingTarget.ofAttributes?] at h
  split at h
  next => cases h
  next attr eq =>
    split at h
    next =>
      cases h
      exact eq
    next => cases h
  next => cases h

theorem ofAttributes?_none {attrs : List Attribute}
    (h : BindingTarget.ofAttributes? attrs = .ok none) :
    Attribute.named StructDecl.directive attrs = [] := by
  rw [BindingTarget.ofAttributes?] at h
  split at h
  next eq => exact eq
  next => split at h <;> cases h
  next => cases h

theorem ofBinding_ok {target : BindingTarget} {own schema : List EnumSource}
    (kind : item.kind = .struct)
    (named : Attribute.named StructDecl.directive item.attrs = [target.attr])
    (h : ofBinding source item target own schema = .ok change) : change.MadeFor source item := by
  rw [ofBinding] at h
  obtain ⟨struct, hstruct, h⟩ := bind_ok_iff.mp h
  obtain ⟨enum, _, h⟩ := bind_ok_iff.mp h
  obtain ⟨block, hblock, h⟩ := bind_ok_iff.mp h
  obtain ⟨deriveEdits, hderives, h⟩ := bind_ok_iff.mp h
  cases h
  have trait : item.markerTrait = bindTrait := by rw [Item.markerTrait, kind]
  refine ⟨?_, ?_, StructDecl.endsAt hstruct, rfl, ?_, fun other => ?_⟩
  · rw [Item.markedDerives, trait]
    exact Attribute.filterMapM_withoutTrait? hderives
  · refine ⟨[target.attr], ?_, rfl⟩
    rw [Item.directives, kind, Item.ownAttributes, kind, named]
    rfl
  · rw [Block.bindOne] at hblock
    obtain ⟨_, _, hblock⟩ := bind_ok_iff.mp hblock
    cases hblock
    exact StructDecl.name_eq hstruct
  · rw [kind] at other
    cases other

/-- **An annotated declaration has a change, and no other has.** -/
theorem ofItem?_ok {own schema : List EnumSource} {change? : Option Change}
    (h : ofItem? source own schema item = .ok change?) :
    (item.isAnnotated = false ∧ change? = none)
      ∨ (item.isAnnotated = true ∧ ∃ change, change? = some change ∧ change.MadeFor source item) := by
  rw [ofItem?] at h
  obtain ⟨marked, hmarked, h⟩ := bind_ok_iff.mp h
  have spec := EnumDecl.isMarked_ok hmarked
  cases marked with
  | true =>
      obtain ⟨change, hchange, h⟩ := bind_ok_iff.mp h
      cases h
      have both := spec.symm
      rw [Bool.and_eq_true, decide_eq_true_iff] at both
      exact .inr ⟨both.2, change, rfl, ofEnum_ok both.1 hchange⟩
  | false =>
      simp only [Bool.false_eq_true, if_false] at h
      split at h
      next other =>
        cases h
        have kind : item.kind = .enum := by
          cases hk : item.kind with
          | enum => rfl
          | struct => exact absurd hk other
        rw [kind] at spec
        exact .inl ⟨by simpa using spec, rfl⟩
      next isStruct =>
        rw [ne_eq, Decidable.not_not] at isStruct
        obtain ⟨target?, htarget, h⟩ := bind_ok_iff.mp h
        rw [Item.isAnnotated, isStruct]
        cases target? with
        | none =>
            cases h
            have named := ofAttributes?_none htarget
            rw [Attribute.named, List.filter_eq_nil_iff] at named
            exact .inl ⟨List.any_eq_false.mpr named, rfl⟩
        | some target =>
            obtain ⟨change, hchange, h⟩ := bind_ok_iff.mp h
            cases h
            have named := ofAttributes?_some htarget
            have mem : target.attr ∈ Attribute.named StructDecl.directive item.attrs := by
              rw [named]
              exact List.mem_cons_self
            obtain ⟨mem, path⟩ := List.mem_filter.mp mem
            exact .inr ⟨List.any_eq_true.mpr ⟨_, mem, path⟩, change, rfl,
              ofBinding_ok isStruct named hchange⟩

end Change

/-- **One change for each annotated declaration**, in order. -/
theorem plan_ok {source label : Text} {schema : List EnumSource} {changes : List Change}
    (h : plan source schema label = .ok changes) :
    ∃ items, source.items = .ok items
      ∧ List.Forall₂ (fun item change => Change.MadeFor source item change)
          (items.filter (·.isAnnotated)) changes := by
  rw [plan] at h
  obtain ⟨items, hitems, hchanges⟩ := bind_ok_iff.mp h
  refine ⟨items, hitems, ?_⟩
  obtain ⟨found, all, rfl⟩ := filterMapM_ok_iff.mp hchanges
  clear h hchanges hitems
  generalize EnumSource.ofItems label source items = own at all
  induction all with
  | nil => exact .nil
  | @cons item change? items found hitem _ ih =>
      rcases Change.ofItem?_ok hitem with ⟨other, rfl⟩ | ⟨annotated, change, rfl, made⟩
      · rw [List.filter_cons, other]
        exact ih
      · rw [List.filter_cons, annotated]
        exact .cons made ih

/-! ## §2. The edits of a change. -/

section Places

variable {t : Text} {items : List Item} {visits : List Visit} {item : Item} {v w : Visit} {m : Int}
  {a : Attribute} {change : Change}

/-- An attribute in brackets begins with its hash and ends with its bracket. -/
theorem Cursor.Bracketed.ends {p : Cursor} (h : Bracketed (t.cursor 0) p m a) :
    a.start < a.stop ∧ a.stop ≤ t.length ∧ t[a.start]? = some '#' ∧ t[a.stop - 1]? = some ']' := by
  obtain ⟨code, close, encloses, stop, level, _, last⟩ := h.encloses
  have closer := encloses.level_closer level
  have forward := h.lt
  have bound := offset_le_length (encloses.level_after level).leadsTo
  rw [advance_offset] at bound
  refine ⟨by omega, by omega, ?_, ?_⟩
  · rw [h.start]
    exact getElem?_of_head? h.code.level.leadsTo h.code.first
  · rw [stop, Nat.add_sub_cancel]
    exact getElem?_of_head? closer.leadsTo last

theorem Cursor.Bracketed.solid {p : Cursor} (h : Bracketed (t.cursor 0) p m a) :
    a.span.Solid t := by
  obtain ⟨forward, bound, first, last⟩ := h.ends
  exact ⟨forward, bound, ⟨'#', first, rfl⟩, ⟨']', last, rfl⟩⟩

theorem Cursor.Scanned.solid (h : Scanned (t.cursor 0) v a) : a.span.Solid t := by
  obtain ⟨p, m, hp⟩ := h.bracketed
  exact hp.solid

/-- The edit that shortens a derive is made for the derive. -/
theorem Attribute.Shortens.isFor {trait : Text} {edit : Edit} (h : a.Shortens t trait edit) :
    edit.IsFor t a.span := by
  obtain ⟨entry, _, eq⟩ := h
  dsimp only at eq
  split at eq
  · exact .inl eq
  · rw [eq]
    exact .inr ⟨rfl, rfl⟩

/-- The directives of a declaration are written with it. -/
theorem directives_owned {attrs : List Attribute}
    (extracts : item.kind = .enum → ∃ enum, EnumDecl.read t item = .ok enum)
    (h : item.directives t = .ok attrs) : ∀ a ∈ attrs, Owns t item a := by
  rw [Item.directives] at h
  split at h
  next kind =>
    obtain ⟨enum, henum⟩ := extracts kind
    obtain ⟨body, close, pieces, parts⟩ := EnumDecl.read_ok_iff.mp henum
    obtain ⟨preludes, hpreludes, hinner, _⟩ := parts.preludes
    obtain ⟨inner, hinner', h⟩ := bind_ok_iff.mp h
    rw [hinner] at hinner'
    cases hinner'
    cases h
    intro a mem
    rcases List.mem_append.mp mem with mem | mem
    · rw [Item.ownAttributes, kind] at mem
      obtain ⟨mem, path⟩ := List.mem_filter.mp mem
      refine .onItem mem ?_
      rintro doc
      rw [doc] at path
      cases path
    · obtain ⟨mem, path⟩ := List.mem_filter.mp mem
      obtain ⟨x, memx, mem⟩ := List.mem_flatMap.mp mem
      obtain ⟨p, memp, hp⟩ := exists_of_forall₂_right hpreludes memx
      refine .onVariant parts ⟨p, memp, _, _, hp, mem⟩ ?_
      rintro doc
      rw [doc] at path
      cases path
  next kind =>
    cases h
    intro a mem
    rw [Item.ownAttributes, kind] at mem
    obtain ⟨mem, path⟩ := List.mem_filter.mp mem
    refine .onItem mem ?_
    rintro doc
    rw [doc] at path
    cases path

theorem markedDerives_owned : ∀ a ∈ item.markedDerives, Owns t item a := by
  intro a mem
  obtain ⟨mem, derives⟩ := List.mem_filter.mp mem
  refine .onItem mem ?_
  rw [Attribute.path_of_derives derives]
  decide

/-- A derive is no directive. -/
theorem ne_of_mem_ownAttributes {b : Attribute} (ha : a ∈ item.markedDerives)
    (hb : b ∈ item.ownAttributes) : a ≠ b := by
  rintro rfl
  have path := Attribute.path_of_derives (List.mem_filter.mp ha).2
  rw [Item.ownAttributes] at hb
  split at hb
  next =>
    have directive := (List.mem_filter.mp hb).2
    rw [path] at directive
    cases directive
  next =>
    have directive := (List.mem_filter.mp hb).2
    rw [path] at directive
    cases directive

/-- What is taken out of a declaration is taken out once. -/
theorem nodup_of_directives {attrs : List Attribute}
    (hv : Visits (t.cursor 0) (t.cursor 0) visits) (loc : Located t visits item v m)
    (extracts : item.kind = .enum → ∃ enum, EnumDecl.read t item = .ok enum)
    (h : item.directives t = .ok attrs) : (item.markedDerives ++ attrs).Nodup := by
  have nodup := loc.nodup hv
  have onItem : (item.markedDerives ++ item.ownAttributes).Nodup := by
    rw [List.nodup_append]
    refine ⟨nodup.filter _, ?_, fun a ha b hb => ne_of_mem_ownAttributes ha hb⟩
    rw [Item.ownAttributes]
    split <;> exact nodup.filter _
  rw [Item.directives] at h
  split at h
  next kind =>
    obtain ⟨enum, henum⟩ := extracts kind
    obtain ⟨body, close, pieces, parts⟩ := EnumDecl.read_ok_iff.mp henum
    obtain ⟨preludes, hpreludes, hinner, _⟩ := parts.preludes
    obtain ⟨inner, hinner', h⟩ := bind_ok_iff.mp h
    rw [hinner] at hinner'
    cases hinner'
    cases h
    obtain ⟨apart, sound⟩ := parts.sound loc.level
    obtain ⟨order, bounds⟩ := preludes_ordered apart sound hpreludes
    have onVariants := nodup_of_ordered order fun a mem => (bounds a mem).1
    rw [← List.append_assoc, List.nodup_append]
    refine ⟨onItem, onVariants.filter _, fun a ha b hb => ?_⟩
    obtain ⟨mem, _⟩ := List.mem_filter.mp hb
    obtain ⟨x, memx, mem⟩ := List.mem_flatMap.mp mem
    obtain ⟨p, memp, hp⟩ := exists_of_forall₂_right hpreludes memx
    have onDeclaration : a ∈ item.attrs := by
      rcases List.mem_append.mp ha with ha | ha
      · exact (List.mem_filter.mp ha).1
      · rw [Item.ownAttributes, kind] at ha
        exact (List.mem_filter.mp ha).1
    exact onItem_ne_onVariant hv loc loc onDeclaration parts ⟨p, memp, _, _, hp, mem⟩
  next =>
    cases h
    exact onItem

/-- **The attributes that a change touches**, each with the edit that is made for it. -/
theorem Change.MadeFor.attributes (hv : Visits (t.cursor 0) (t.cursor 0) visits)
    (loc : Located t visits item v m) (made : change.MadeFor t item) :
    ∃ attrs : List Attribute, attrs.Nodup ∧ (∀ a ∈ attrs, Owns t item a)
      ∧ List.Forall₂ (fun a e => e.IsFor t a.span) attrs
          (change.deriveEdits ++ change.directives.map t.removal) := by
  obtain ⟨directives, hdirectives, eq⟩ := made.directives
  have extracts : item.kind = .enum → ∃ enum, EnumDecl.read t item = .ok enum := fun kind => by
    obtain ⟨enum, _, henum, _⟩ := made.extracts kind
    exact ⟨enum, henum⟩
  refine ⟨item.markedDerives ++ directives, nodup_of_directives hv loc extracts hdirectives,
    fun a mem => ?_, ?_⟩
  · rcases List.mem_append.mp mem with mem | mem
    · exact markedDerives_owned a mem
    · exact directives_owned extracts hdirectives a mem
  · refine List.rel_append (made.derives.imp fun a e h => h.isFor) ?_
    rw [eq, List.map_map, List.forall₂_map_right_iff, List.forall₂_same]
    exact fun a _ => .inl rfl

end Places

/-! ## §3. The edits of all changes. -/

section Edits

variable {t : Text} {items : List Item} {visits : List Visit} {item item' : Item} {v v' w w' : Visit}
  {m m' : Int} {a b : Attribute} {change change' : Change} {e e' : Edit}

/-- Edits for two attributes lie apart. -/
theorem apart_of_scanned (hv : Visits (t.cursor 0) (t.cursor 0) visits) (memw : w ∈ visits)
    (memw' : w' ∈ visits) (ha : Scanned (t.cursor 0) w a) (hb : Scanned (t.cursor 0) w' b)
    (he : e.IsFor t a.span) (he' : e'.IsFor t b.span) (ne : a ≠ b) : e.Apart e' := by
  rcases ha.apart hv memw memw' hb with same | before | after
  · exact absurd same ne
  · exact .inl (he.ordered he' ha.solid hb.solid before)
  · exact .inr (he'.ordered he hb.solid ha.solid after)

/-- An edit for an attribute lies apart from the block at the end of a declaration. -/
theorem apart_of_stop {stop : Nat} {block : Text} (hv : Visits (t.cursor 0) (t.cursor 0) visits)
    (loc : Located t visits item v m) (ends : item.EndsAt t stop) (memw : w ∈ visits)
    (ha : Scanned (t.cursor 0) w a) (he : e.IsFor t a.span) : e.Apart ⟨stop, stop, block⟩ := by
  have extent := ends.extent loc.level
  obtain ⟨x, ch, k, hx, xstop, _, last⟩ := extent.last
  have found : t[x.offset]? = some ch := getElem?_of_head? hx.level.leadsTo hx.first
  have plain : isBlank ch = false := by rcases last with rfl | rfl <;> rfl
  rcases apart_stop hv loc extent memw ha with before | after
  · refine .inl ?_
    obtain ⟨p, k, hp⟩ := ha.bracketed
    obtain ⟨_, _, _, bracket⟩ := hp.ends
    -- a declaration ends in a brace or a semicolon, an attribute in a bracket
    have ne : a.stop - 1 ≠ x.offset := by
      intro same
      rw [same, found] at bracket
      cases bracket
      rcases last with last | last <;> cases last
    have le := he.stop_le ha.solid (i := x.offset) (by show a.stop ≤ _; omega) found plain
    show e.stop ≤ stop
    omega
  · refine .inr ?_
    have lt := he.le_start ha.solid (i := x.offset) (by show _ < a.start; omega) found plain
    show stop ≤ e.start
    omega

theorem apart_of_stops {stop stop' : Nat} {block block' : Text} :
    Edit.Apart ⟨stop, stop, block⟩ ⟨stop', stop', block'⟩ :=
  Nat.le_total stop stop'

/-- An edit is made for an attribute that the declaration owns, or it puts the block at its end. -/
inductive Change.Edits (t : Text) (item : Item) (e : Edit) : Prop where
  | removed {a : Attribute} (owns : Owns t item a) (isFor : e.IsFor t a.span)
  | block {stop : Nat} {block : Text} (ends : item.EndsAt t stop) (eq : e = ⟨stop, stop, block⟩)

theorem Change.MadeFor.mem_edits (hv : Visits (t.cursor 0) (t.cursor 0) visits)
    (loc : Located t visits item v m) (made : change.MadeFor t item) (mem : e ∈ change.edits t) :
    Change.Edits t item e := by
  obtain ⟨attrs, _, owned, all⟩ := made.attributes hv loc
  rw [Change.edits] at mem
  rcases List.mem_append.mp mem with mem | mem
  · obtain ⟨a, mema, isFor⟩ := exists_of_forall₂_right all mem
    exact .removed (owned a mema) isFor
  · exact .block made.stop (List.mem_singleton.mp mem)

/-- The edits of one change lie apart. -/
theorem Change.MadeFor.edits_apart (hv : Visits (t.cursor 0) (t.cursor 0) visits)
    (loc : Located t visits item v m) (made : change.MadeFor t item) :
    (change.edits t).Pairwise Edit.Apart := by
  obtain ⟨attrs, nodup, owned, all⟩ := made.attributes hv loc
  rw [Change.edits, List.pairwise_append]
  refine ⟨?_, List.pairwise_singleton _ _, fun e mem e' mem' => ?_⟩
  · have differ := nodup.imp_of_mem (S := fun a b => Owns t item a ∧ Owns t item b ∧ a ≠ b)
      fun ha hb ne => ⟨owned _ ha, owned _ hb, ne⟩
    refine pairwise_of_forall₂ (fun he he' spec => ?_) all differ
    obtain ⟨owns, owns', ne⟩ := spec
    obtain ⟨w, memw, ha⟩ := owns.scanned hv loc
    obtain ⟨w', memw', hb⟩ := owns'.scanned hv loc
    exact apart_of_scanned hv memw memw' ha hb he he' ne
  · obtain ⟨a, mema, isFor⟩ := exists_of_forall₂_right all mem
    obtain ⟨w, memw, ha⟩ := (owned a mema).scanned hv loc
    rw [List.mem_singleton.mp mem']
    exact apart_of_stop hv loc made.stop memw ha isFor

/-- The edits of two changes lie apart. -/
theorem apart_of_order (hv : Visits (t.cursor 0) (t.cursor 0) visits)
    (loc : Located t visits item v m) (loc' : Located t visits item' v' m')
    (order : v.stop ≤ v'.place.offset) (he : Change.Edits t item e)
    (he' : Change.Edits t item' e') : e.Apart e' := by
  cases he with
  | removed owns isFor =>
      obtain ⟨w, memw, ha⟩ := owns.scanned hv loc
      cases he' with
      | removed owns' isFor' =>
          obtain ⟨w', memw', hb⟩ := owns'.scanned hv loc'
          exact apart_of_scanned hv memw memw' ha hb isFor isFor'
            (owns.ne hv loc loc' order owns')
      | block ends eq =>
          rw [eq]
          exact apart_of_stop hv loc' ends memw ha isFor
  | block ends eq =>
      cases he' with
      | removed owns' isFor' =>
          obtain ⟨w', memw', hb⟩ := owns'.scanned hv loc'
          rw [eq]
          exact (apart_of_stop hv loc ends memw' hb isFor').symm
      | block ends' eq' =>
          rw [eq, eq']
          exact apart_of_stops

/-- An edit of a declaration stays in the text. -/
theorem Change.Edits.valid (hv : Visits (t.cursor 0) (t.cursor 0) visits)
    (loc : Located t visits item v m) (h : Change.Edits t item e) :
    e.start ≤ e.stop ∧ e.stop ≤ t.length := by
  cases h with
  | removed owns isFor =>
      obtain ⟨w, _, ha⟩ := owns.scanned hv loc
      have forward := ha.solid.forward
      have bounds := isFor.bounds ha.solid
      omega
  | block ends eq =>
      obtain ⟨c, hc, rfl⟩ := (ends.extent loc.level).stop
      rw [eq]
      exact ⟨Nat.le_refl _, offset_le_length hc.leadsTo⟩

variable {changes : List Change}

theorem exists_located_of_mem (hv : Visits (t.cursor 0) (t.cursor 0) visits) (plain : t.NamesPlain)
    (h : t.items = .ok items) (eq : items = visits.filterMap (·.found)) (mem : item ∈ items) :
    ∃ v m, Located t visits item v m := by
  rw [eq] at mem
  obtain ⟨v, memv, found⟩ := List.mem_filterMap.mp mem
  obtain ⟨m, loc⟩ := exists_located hv plain h eq memv found
  exact ⟨v, m, loc⟩

/-- **The edits of all changes lie apart.** -/
theorem edits_apart (hv : Visits (t.cursor 0) (t.cursor 0) visits) (plain : t.NamesPlain)
    (h : t.items = .ok items) (eq : items = visits.filterMap (·.found))
    (made : List.Forall₂ (fun item change => Change.MadeFor t item change)
      (items.filter (·.isAnnotated)) changes) :
    (changes.flatMap (Change.edits t)).Pairwise Edit.Apart
      ∧ Edit.Valid t (changes.flatMap (Change.edits t)) := by
  have origin (change : Change) (mem : change ∈ changes) :
      ∃ item v m, Located t visits item v m ∧ change.MadeFor t item := by
    obtain ⟨item, mem, made⟩ := exists_of_forall₂_right made mem
    obtain ⟨v, m, loc⟩ := exists_located_of_mem hv plain h eq (List.mem_filter.mp mem).1
    exact ⟨item, v, m, loc, made⟩
  constructor
  · rw [List.pairwise_flatMap]
    constructor
    · intro change mem
      obtain ⟨item, v, m, loc, made⟩ := origin change mem
      exact made.edits_apart hv loc
    · refine pairwise_of_forall₂ (fun made made' spec => ?_) made
        ((items_ordered hv plain h eq).filter _)
      intro e mem e' mem'
      obtain ⟨v, m, w, k, loc, loc', order⟩ := spec
      exact apart_of_order hv loc loc' order (made.mem_edits hv loc mem)
        (made'.mem_edits hv loc' mem')
  · intro e mem
    obtain ⟨change, memc, mem⟩ := List.mem_flatMap.mp mem
    obtain ⟨item, v, m, loc, made⟩ := origin change memc
    exact (made.mem_edits hv loc mem).valid hv loc

/-- What a change removes is in the text. -/
theorem Change.MadeFor.removals (hv : Visits (t.cursor 0) (t.cursor 0) visits)
    (loc : Located t visits item v m) (made : change.MadeFor t item) :
    (∀ a ∈ item.markedDerives, RemovalSpec t a.span (t.removal a.span))
      ∧ ∀ span ∈ change.directives, RemovalSpec t span (t.removal span) := by
  have spec (a : Attribute) (owns : Owns t item a) : RemovalSpec t a.span (t.removal a.span) := by
    obtain ⟨w, _, ha⟩ := owns.scanned hv loc
    exact removal_spec ha.solid.bound
  obtain ⟨directives, hdirectives, eq⟩ := made.directives
  refine ⟨fun a mem => spec a (markedDerives_owned a mem), fun span mem => ?_⟩
  rw [eq] at mem
  obtain ⟨a, mema, rfl⟩ := List.mem_map.mp mem
  refine spec a (directives_owned (fun kind => ?_) hdirectives a mema)
  obtain ⟨enum, _, henum, _⟩ := made.extracts kind
  exact ⟨enum, henum⟩

end Edits

/-! ## §4. Transformed sources. -/

/-- **A transformed source is the source with its edits.**  Each annotated declaration has its
change; what a change removes besides its span is blank; and all that no edit covers stays, once
and in order. -/
theorem transform_rewrites {source label : Text} {schema : List EnumSource} {rendered : Rendered}
    (plain : source.NamesPlain) (h : transform source schema label = .ok rendered) :
    ∃ items changes, source.items = .ok items
      ∧ List.Forall₂ (fun item change => Change.MadeFor source item change
          ∧ (∀ a ∈ item.markedDerives, RemovalSpec source a.span (source.removal a.span))
          ∧ ∀ span ∈ change.directives, RemovalSpec source span (source.removal span))
        (items.filter (·.isAnnotated)) changes
      ∧ (changes.flatMap (Change.edits source)).Pairwise Edit.Apart
      ∧ rendered.text = Text.rewritten (changes.flatMap (Change.edits source)) 0 source
      ∧ rendered.blocks = changes.map (·.block) := by
  rw [transform] at h
  obtain ⟨changes, hplan, h⟩ := bind_ok_iff.mp h
  cases h
  obtain ⟨items, hitems, made⟩ := plan_ok hplan
  obtain ⟨visits, eq, hv⟩ := items_visits hitems plain
  obtain ⟨apart, valid⟩ := edits_apart hv plain hitems eq made
  refine ⟨items, changes, hitems, ?_, apart, Text.applyEdits_eq apart valid, rfl⟩
  have located : ∀ item ∈ items.filter (·.isAnnotated), ∃ v m, Located source visits item v m := by
    intro item mem
    exact exists_located_of_mem hv plain hitems eq (List.mem_filter.mp mem).1
  refine ((List.forall₂_and_left _ _).mpr ⟨located, made⟩).imp fun item change spec => ?_
  obtain ⟨⟨v, m, loc⟩, made⟩ := spec
  exact ⟨made, made.removals hv loc⟩

/-- An enum in a module, with a derive that names the marker and a directive on a variant. -/
def markedInModule : Text :=
  "mod m \x7b\n    #[derive(Clone, extract_variant)]\n    enum E \x7b #[exclude] A, B(u8) \x7d\n\x7d\n"

theorem markedInModule_rewrites :
    ∃ rendered, transform markedInModule [] "" = .ok rendered ∧ markedInModule.NamesPlain
      ∧ ∃ items changes, markedInModule.items = .ok items
        ∧ List.Forall₂ (fun item change => Change.MadeFor markedInModule item change
            ∧ (∀ a ∈ item.markedDerives,
                RemovalSpec markedInModule a.span (markedInModule.removal a.span))
            ∧ ∀ span ∈ change.directives,
                RemovalSpec markedInModule span (markedInModule.removal span))
          (items.filter (·.isAnnotated)) changes
        ∧ (changes.flatMap (Change.edits markedInModule)).Pairwise Edit.Apart
        ∧ rendered.text
          = Text.rewritten (changes.flatMap (Change.edits markedInModule)) 0 markedInModule
        ∧ rendered.blocks = changes.map (·.block) := by
  obtain ⟨rendered, h, _⟩ : ∃ rendered, transform markedInModule [] "" = .ok rendered
      ∧ rendered.blocks.length = 1 := exists_ok_of_decide (by decide +kernel)
  have plain : markedInModule.NamesPlain := by
    obtain ⟨items, hitems, all⟩ : ∃ items, markedInModule.items = .ok items ∧ ∀ item ∈ items,
        (markedInModule.cursor (item.bodyIndex - item.name.length)).PlainWord item.name :=
      exists_ok_of_decide (by decide +kernel)
    intro items' hitems' item mem
    rw [hitems] at hitems'
    cases hitems'
    exact all item mem
  exact ⟨rendered, h, plain, transform_rewrites plain h⟩

/-- A source with a raw string that opens inside the name behind a keyword, in a discriminant:
the scan reads the quotation mark as the start of a text, the reader of the enum does not. -/
def gluedName : Text :=
  "#[extract_variant] enum A \x7b X = 1 + struct r#r#\" \" #[extract_variant] enum B \x7b Y = \"# , "
    ++ "#[variant_attrs(#[doc = \" \x7d \"])] Z \x7d // \""

/-- **Edits of a transformed source may overlap** though no raw string stands right behind a
keyword. -/
theorem gluedName_overlaps :
    (∃ items, gluedName.items = .ok items ∧ ∀ item ∈ items,
        (gluedName.cursor (item.bodyIndex - item.name.length)).rawOpener? = none)
      ∧ (∃ rendered, transform gluedName [] "" = .ok rendered ∧ rendered.blocks.length = 2)
      ∧ ∃ changes, plan gluedName [] "" = .ok changes
        ∧ ¬ (changes.flatMap (Change.edits gluedName)).Pairwise Edit.Apart :=
  ⟨exists_ok_of_decide (by decide +kernel), exists_ok_of_decide (by decide +kernel),
    exists_ok_of_decide (by decide +kernel)⟩

end EnumExtract
