/-
  EnumExtract.Proofs.Variants
  ────────────────────────────────
  What the reader of a variant has found, part by part.

  Main results:
    • `Variant.read_ok_iff`      the parts of a variant,
    • `Variant.readAll_ok_iff`   a list of variants is read one by one, and no
                                 two share a name,
    • `Directives.spans_eq`      the directives of a variant are its attributes
                                 with a directive's path.
-/
import EnumExtract.Proofs.Prelude
import EnumExtract.Proofs.Names
import EnumExtract.Schema.Variant

namespace EnumExtract

open Cursor

/-- Where the attribute stands. -/
def Attribute.span (attr : Attribute) : Span :=
  ⟨attr.start, attr.stop⟩

namespace Variant

/-- The paths of the attributes that are directives on a variant. -/
def directivePaths : List Text :=
  ["exclude", "variant_attrs"]

theorem contains_directivePaths {path : Text} :
    directivePaths.contains path = true ↔ path = "exclude" ∨ path = "variant_attrs" := by
  rw [List.contains_iff_mem, directivePaths, List.mem_cons, List.mem_singleton]

/-! ## §1. Directives. -/

namespace Directives

/-- What one more attribute does. -/
inductive Adds (source : Text) (d : Directives) (attr : Attribute) : Directives → Prop where
  | exclude (path : attr.path = "exclude") :
      Adds source d attr { d with excluded := true, spans := d.spans ++ [attr.span] }
  | listed {entries : List Metadata} (path : attr.path = "variant_attrs")
      (first : d.listed = false) (h : listedAttrs source attr = .ok entries) :
      Adds source d attr
        { d with metadata := d.metadata ++ entries, spans := d.spans ++ [attr.span], listed := true }
  | doc {entry : Metadata} (path : attr.path = "doc") (h : Metadata.ofAttribute attr = .ok entry) :
      Adds source d attr { d with metadata := d.metadata ++ [entry] }
  | other (noDirective : directivePaths.contains attr.path = false) (noDoc : attr.path ≠ "doc") :
      Adds source d attr d

theorem add_ok_iff {source : Text} {d d' : Directives} {attr : Attribute} :
    add source d attr = .ok d' ↔ Adds source d attr d' := by
  constructor
  · intro h
    rw [add] at h
    simp only at h
    split at h
    next path =>
      cases h
      exact .exclude path
    next noExclude =>
      split at h
      next path =>
        split at h
        next => cases h
        next first =>
          obtain ⟨entries, hentries, h⟩ := bind_ok_iff.mp h
          cases h
          exact .listed path (by simpa using first) hentries
      next noList =>
        split at h
        next path =>
          obtain ⟨entry, hentry, h⟩ := bind_ok_iff.mp h
          cases h
          exact .doc path hentry
        next noDoc =>
          cases h
          refine .other (Bool.eq_false_iff.mpr fun contains => ?_) noDoc
          rcases contains_directivePaths.mp contains with path | path
          · exact noExclude path
          · exact noList path
  · intro h
    rw [add]
    cases h with
    | exclude path =>
        rw [if_pos path]
        rfl
    | listed path first h =>
        rw [if_neg (by rw [path]; decide), if_pos path, if_neg (by simp [first])]
        exact bind_ok_iff.mpr ⟨_, h, rfl⟩
    | doc path h =>
        rw [if_neg (by rw [path]; decide), if_neg (by rw [path]; decide), if_pos path]
        exact bind_ok_iff.mpr ⟨_, h, rfl⟩
    | other noDirective noDoc =>
        have ne := mt contains_directivePaths.mpr (Bool.eq_false_iff.mp noDirective)
        rw [if_neg fun path => ne (.inl path), if_neg fun path => ne (.inr path), if_neg noDoc]
        rfl

/-- **The directives of a variant** are its attributes with a directive's path. -/
theorem spans_eq {source : Text} {attrs : List Attribute} : ∀ {d d' : Directives},
    attrs.foldlM (add source) d = .ok d' →
      d'.spans = d.spans ++ (attrs.filter (directivePaths.contains ·.path)).map (·.span) := by
  induction attrs with
  | nil =>
      intro d d' h
      cases h
      rw [List.filter_nil, List.map_nil, List.append_nil]
  | cons attr attrs ih =>
      intro d d' h
      rw [List.foldlM_cons] at h
      obtain ⟨d₁, hadd, h⟩ := bind_ok_iff.mp h
      rw [ih h, List.filter_cons]
      cases add_ok_iff.mp hadd with
      | exclude path => simp [directivePaths, path]
      | listed path _ _ => simp [directivePaths, path]
      | doc path _ => simp [directivePaths, path]
      | other noDirective _ => rw [if_neg (by rw [noDirective]; decide)]

end Directives

/-! ## §2. One variant. -/

/-- The parts of the variant that a piece holds: its attributes up to `head`, its name up to
`behind`, what may be its fields from `place` to `rest`. -/
structure Parts (source : Text) (piece : Piece) (v : Variant) (attrs : List Attribute)
    (fields : List Field) (d : Directives) (head behind place rest : Cursor) : Prop where
  prelude : Prelude piece.start attrs head
  name : head.identifier? = some (v.name, behind)
  toFields : Trivia false behind place
  read : readFields place piece.stop = .ok (fields, rest)
  ends : rest.offset < piece.stop → rest.sees "=" = true
  directives : attrs.foldlM (Directives.add source) Directives.empty = .ok d
  shape : Shape.classify fields head.offset = .ok v.shape
  metadata : v.metadata = d.metadata
  excluded : v.excluded = d.excluded
  index : v.index = head.offset
  spans : v.directives = d.spans

theorem read_ok_iff {source : Text} {piece : Piece} {v : Variant} :
    read source piece = .ok v ↔ ∃ attrs fields d head behind place rest,
      Parts source piece v attrs fields d head behind place rest := by
  constructor
  · intro h
    rw [read] at h
    obtain ⟨⟨attrs, head⟩, prelude, h⟩ := bind_ok_iff.mp h
    obtain ⟨⟨name, behind⟩, hname, h⟩ := bind_ok_iff.mp h
    obtain ⟨place, toFields, h⟩ := bind_ok_iff.mp h
    obtain ⟨⟨fields, rest⟩, hfields, h⟩ := bind_ok_iff.mp h
    have hname' : head.identifier? = some (name, behind) := by
      rw [readIdentifier] at hname
      split at hname
      next found eq =>
        cases hname
        exact eq
      next => cases hname
    simp only at h
    split at h
    next => cases h
    next ends =>
      obtain ⟨d, directives, h⟩ := bind_ok_iff.mp h
      obtain ⟨shape, hshape, h⟩ := bind_ok_iff.mp h
      cases h
      refine ⟨attrs, fields, d, head, behind, place, rest, readPrelude_ok_iff.mp prelude, hname',
        skipTrivia_ok_iff.mp toFields, hfields, fun lt => ?_, directives, hshape, rfl, rfl, rfl, rfl⟩
      simpa [lt] using ends
  · rintro ⟨attrs, fields, d, head, behind, place, rest, parts⟩
    rw [read]
    refine bind_ok_iff.mpr ⟨_, readPrelude_ok_iff.mpr parts.prelude, ?_⟩
    have hname : head.readIdentifier = .ok (v.name, behind) := by
      rw [readIdentifier, parts.name]
    refine bind_ok_iff.mpr ⟨_, hname, ?_⟩
    refine bind_ok_iff.mpr ⟨_, skipTrivia_ok_iff.mpr parts.toFields, ?_⟩
    refine bind_ok_iff.mpr ⟨_, parts.read, ?_⟩
    have ends : ¬ (decide (rest.offset < piece.stop) && !rest.sees "=") = true := by
      intro h
      rw [Bool.and_eq_true, decide_eq_true_iff, Bool.not_eq_true'] at h
      rw [parts.ends h.1] at h
      cases h.2
    simp only
    rw [if_neg ends]
    refine bind_ok_iff.mpr ⟨_, parts.directives, bind_ok_iff.mpr ⟨_, parts.shape, ?_⟩⟩
    rw [pure_ok_iff]
    obtain ⟨name, shape, metadata, excluded, index, spans⟩ := v
    simp only [Variant.mk.injEq, true_and]
    exact ⟨parts.metadata.symm, parts.excluded.symm, parts.index.symm, parts.spans.symm⟩

theorem Parts.spans_eq {source : Text} {piece : Piece} {v : Variant} {attrs : List Attribute}
    {fields : List Field} {d : Directives} {head behind place rest : Cursor}
    (h : Parts source piece v attrs fields d head behind place rest) :
    v.directives = (attrs.filter (directivePaths.contains ·.path)).map (·.span) := by
  rw [h.spans, Directives.spans_eq h.directives]
  rfl

/-! ## §3. All variants. -/

theorem find?_eq_none_iff {name : Text} {known : List Variant} :
    find? name known = none ↔ name ∉ known.map (·.name) := by
  rw [find?, List.find?_eq_none]
  simp only [decide_eq_true_iff, List.mem_map, not_exists, not_and]

theorem readAll_step_ok_iff {source : Text} {known known' : List Variant} {piece : Piece} :
    readAll.step source known piece = .ok known' ↔
      ∃ v, read source piece = .ok v ∧ v.name ∉ known.map (·.name) ∧ known' = known ++ [v] := by
  rw [readAll.step, bind_ok_iff]
  constructor
  · rintro ⟨v, hv, h⟩
    refine ⟨v, hv, ?_⟩
    split at h
    next => cases h
    next fresh =>
      cases h
      exact ⟨find?_eq_none_iff.mp (by simpa using fresh), rfl⟩
  · rintro ⟨v, hv, fresh, rfl⟩
    refine ⟨v, hv, ?_⟩
    rw [find?_eq_none_iff.mpr fresh]
    rfl

theorem foldlM_readAll_ok_iff {source : Text} {pieces : List Piece} :
    ∀ {known all : List Variant}, pieces.foldlM (readAll.step source) known = .ok all ↔
      ∃ vs, List.Forall₂ (fun p v => read source p = .ok v) pieces vs
        ∧ (∀ v ∈ vs, v.name ∉ known.map (·.name)) ∧ (vs.map (·.name)).Nodup
        ∧ all = known ++ vs := by
  induction pieces with
  | nil =>
      intro known all
      rw [List.foldlM_nil, pure_ok_iff]
      constructor
      · rintro rfl
        exact ⟨[], .nil, nofun, .nil, (List.append_nil _).symm⟩
      · rintro ⟨vs, read, _, _, rfl⟩
        cases read
        exact (List.append_nil _).symm
  | cons piece pieces ih =>
      intro known all
      rw [List.foldlM_cons, bind_ok_iff]
      constructor
      · rintro ⟨known', hstep, h⟩
        obtain ⟨v, hv, fresh, rfl⟩ := readAll_step_ok_iff.mp hstep
        obtain ⟨vs, hvs, apart, nodup, rfl⟩ := ih.mp h
        refine ⟨v :: vs, .cons hv hvs, ?_, ?_, by rw [List.append_assoc, List.singleton_append]⟩
        · intro w mem
          rcases List.mem_cons.mp mem with rfl | mem
          · exact fresh
          · have := apart w mem
            rw [List.map_append, List.mem_append] at this
            exact fun known => this (.inl known)
        · rw [List.map_cons, List.nodup_cons]
          refine ⟨fun mem => ?_, nodup⟩
          obtain ⟨w, hw, same⟩ := List.mem_map.mp mem
          refine apart w hw ?_
          rw [List.map_append, List.mem_append, same]
          exact .inr (List.mem_singleton.mpr rfl)
      · rintro ⟨vs, hvs, apart, nodup, rfl⟩
        cases hvs with
        | @cons _ v _ vs hv hvs =>
            rw [List.map_cons, List.nodup_cons] at nodup
            refine ⟨known ++ [v], readAll_step_ok_iff.mpr ⟨v, hv, apart v List.mem_cons_self, rfl⟩, ?_⟩
            refine ih.mpr ⟨vs, hvs, ?_, nodup.2, by rw [List.append_assoc, List.singleton_append]⟩
            intro w mem known'
            rw [List.map_append, List.mem_append] at known'
            rcases known' with old | new
            · exact apart w (List.mem_cons_of_mem _ mem) old
            · rw [List.map_singleton, List.mem_singleton] at new
              exact nodup.1 (new ▸ List.mem_map_of_mem mem)

/-- **A list of variants is read one by one**, and no two share a name. -/
theorem readAll_ok_iff {source : Text} {pieces : List Piece} {vs : List Variant} :
    readAll source pieces = .ok vs ↔
      List.Forall₂ (fun p v => read source p = .ok v) pieces vs ∧ (vs.map (·.name)).Nodup := by
  rw [readAll, foldlM_readAll_ok_iff]
  constructor
  · rintro ⟨vs', hvs, _, nodup, rfl⟩
    exact ⟨hvs, nodup⟩
  · rintro ⟨hvs, nodup⟩
    exact ⟨vs, hvs, nofun, nodup, rfl⟩

/-- **The variants of a body** are those of its pieces. -/
theorem readBody_ok_iff {source : Text} {opening : Cursor} {close : Nat} {vs : List Variant} :
    readBody source opening close = .ok vs ↔
      ∃ pieces, (opening.advance 1).pieces close = .ok pieces ∧ readAll source pieces = .ok vs :=
  bind_ok_iff

end Variant

end EnumExtract
