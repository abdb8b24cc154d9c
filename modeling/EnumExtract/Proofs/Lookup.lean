/-
  EnumExtract.Proofs.Lookup
  ────────────────────────────────
  Looking an enum up by its path.

  Of two catalogs only the enums matter whose name is the last segment of the
  path, and of these the first catalog's if it has any.  Their order does not
  matter: one of them is selected if it is alone, by its name or by its module
  path, and otherwise the places of all are reported, sorted.

  Main results:
    • `sorted_eq_of_perm`   a sorted list does not depend on the order before,
    • `lookup?_ok_iff`      what is found in one catalog,
    • `resolve_relevant`    what a resolved path depends on, and what it selects.
-/
import EnumExtract.Proofs.Edits
import EnumExtract.Proofs.Walk
import EnumExtract.Schema.Catalog
import Mathlib.Data.List.Sort

namespace EnumExtract

/-! ## §1. The order of texts. -/

namespace Text

theorem precedes_total (s t : Text) (h : precedes s t = false) : precedes t s = true := by
  induction s generalizing t with
  | nil => cases h
  | cons a s ih =>
      cases t with
      | nil => rfl
      | cons b t =>
          simp only [precedes, Bool.or_eq_false_iff, Bool.and_eq_false_iff, decide_eq_false_iff_not,
            beq_eq_false_iff_ne, Bool.or_eq_true, Bool.and_eq_true, decide_eq_true_iff,
            beq_iff_eq] at h ⊢
          obtain ⟨notBefore, differs | after⟩ := h
          · rcases UInt32.lt_or_eq_of_le (UInt32.not_lt.mp notBefore) with lt | eq
            · exact .inl lt
            · exact absurd (Char.ext eq.symm) differs
          · rcases UInt32.lt_or_eq_of_le (UInt32.not_lt.mp notBefore) with lt | eq
            · exact .inl lt
            · exact .inr ⟨Char.ext eq, ih t after⟩

theorem precedes_trans (s t u : Text) (h : precedes s t = true) (h' : precedes t u = true) :
    precedes s u = true := by
  induction s generalizing t u with
  | nil => rfl
  | cons a s ih =>
      cases t with
      | nil => cases h
      | cons b t =>
          cases u with
          | nil => cases h'
          | cons c u =>
              simp only [precedes, Bool.or_eq_true, Bool.and_eq_true, decide_eq_true_iff,
                beq_iff_eq] at h h' ⊢
              obtain lt | ⟨rfl, rest⟩ := h
              · obtain lt' | ⟨rfl, _⟩ := h'
                · exact .inl (UInt32.lt_trans lt lt')
                · exact .inl lt
              · obtain lt' | ⟨rfl, rest'⟩ := h'
                · exact .inl lt'
                · exact .inr ⟨rfl, ih t u rest rest'⟩

theorem precedes_antisymm (s t : Text) (h : precedes s t = true) (h' : precedes t s = true) :
    s = t := by
  induction s generalizing t with
  | nil =>
      cases t with
      | nil => rfl
      | cons b t => cases h'
  | cons a s ih =>
      cases t with
      | nil => cases h
      | cons b t =>
          simp only [precedes, Bool.or_eq_true, Bool.and_eq_true, decide_eq_true_iff,
            beq_iff_eq] at h h'
          obtain lt | ⟨rfl, rest⟩ := h
          · obtain lt' | ⟨rfl, _⟩ := h'
            · exact absurd lt' (UInt32.not_lt.mpr (UInt32.le_of_lt lt))
            · exact absurd lt (UInt32.lt_irrefl _)
          · obtain lt' | ⟨_, rest'⟩ := h'
            · exact absurd lt' (UInt32.lt_irrefl _)
            · rw [ih t rest rest']

end Text

/-- **Lists of the same texts are sorted alike**: the order leaves no ties between different
texts. -/
theorem sorted_eq_of_perm {texts texts' : List Text} (h : texts.Perm texts') :
    sorted Text.precedes texts = sorted Text.precedes texts' :=
  List.Perm.eq_of_pairwise (fun s t _ _ => Text.precedes_antisymm s t)
    (sorted_pairwise Text.precedes_total Text.precedes_trans texts)
    (sorted_pairwise Text.precedes_total Text.precedes_trans texts')
    ((sorted_perm texts).trans (h.trans (sorted_perm texts').symm))

namespace Catalog

/-! ## §2. The segments of a path. -/

/-- The name that a path ends in. -/
def lastSegment (path : Text) : Text :=
  (Text.segments path).getLastD []

/-- The segments of a path without the roots in front. -/
def stem (path : Text) : List Text :=
  dropRoots (Text.segments path)

/-- Only roots are dropped, and all of them up to the last segment. -/
theorem dropRoots_spec (segments : List Text) :
    ∃ before, segments = before ++ dropRoots segments ∧ (∀ root ∈ before, root ∈ roots)
      ∧ ∀ first next rest, dropRoots segments = first :: next :: rest → first ∉ roots := by
  induction segments using dropRoots.induct with
  | case1 root next rest isRoot ih =>
      obtain ⟨before, eq, all, first⟩ := ih
      rw [dropRoots, if_pos isRoot]
      refine ⟨root :: before, congrArg (root :: ·) eq, fun other mem => ?_, first⟩
      rcases List.mem_cons.mp mem with rfl | mem
      · exact List.contains_iff_mem.mp isRoot
      · exact all other mem
  | case2 root next rest notRoot =>
      rw [dropRoots, if_neg notRoot]
      refine ⟨[], rfl, nofun, ?_⟩
      rintro _ _ _ ⟨⟩ mem
      exact notRoot (List.contains_iff_mem.mpr mem)
  | case3 segments short =>
      rw [dropRoots.eq_2 segments short]
      exact ⟨[], rfl, nofun, fun first next rest eq => absurd eq (short first next rest)⟩

theorem getLastD_dropRoots (segments : List Text) (other : Text) :
    (dropRoots segments).getLastD other = segments.getLastD other := by
  induction segments using dropRoots.induct with
  | case1 root next rest isRoot ih => rw [dropRoots, if_pos isRoot, ih]; rfl
  | case2 root next rest notRoot => rw [dropRoots, if_neg notRoot]
  | case3 segments short => rw [dropRoots.eq_2 segments short]

/-! ## §3. One catalog. -/

section Lookup

variable {path : Text} {catalog catalog' : List EnumSource} {source : EnumSource}

/-- The enums of a catalog whose name is the path's last segment. -/
def named (path : Text) (catalog : List EnumSource) : List EnumSource :=
  catalog.filter (·.item.name = lastSegment path)

/-- Those of them whose own path ends in the path, its roots dropped. -/
def ending (path : Text) (catalog : List EnumSource) : List EnumSource :=
  (named path catalog).filter fun source => (stem path).isSuffixOf source.item.path

/-- The enum is the only one of its name, or else the only one whose module path fits. -/
def Chosen (path : Text) (catalog : List EnumSource) (source : EnumSource) : Prop :=
  named path catalog = [source] ∨ ending path catalog = [source]

theorem candidates_eq (path : Text) (catalog : List EnumSource) :
    candidates (dropRoots (Text.segments path)) catalog
      = if (named path catalog).length ≤ 1 then named path catalog
        else if (ending path catalog).isEmpty then named path catalog
        else ending path catalog := by
  rw [candidates, getLastD_dropRoots]
  rfl

theorem candidates_perm (h : catalog.Perm catalog') :
    (candidates (dropRoots (Text.segments path)) catalog).Perm
      (candidates (dropRoots (Text.segments path)) catalog') := by
  have byName : (named path catalog).Perm (named path catalog') := h.filter _
  have byPath : (ending path catalog).Perm (ending path catalog') := byName.filter _
  rw [candidates_eq, candidates_eq, byName.length_eq, byPath.isEmpty_eq]
  split
  · exact byName
  · split
    · exact byName
    · exact byPath

/-- Nothing depends on the order: several candidates are reported by their sorted places. -/
theorem lookup?_perm (h : catalog.Perm catalog') : lookup? path catalog = lookup? path catalog' := by
  have perm : (candidates (dropRoots (Text.segments path)) catalog).Perm
      (candidates (dropRoots (Text.segments path)) catalog') := candidates_perm h
  rw [lookup?, lookup?]
  generalize candidates (dropRoots (Text.segments path)) catalog = found at perm
  generalize candidates (dropRoots (Text.segments path)) catalog' = found' at perm
  match found, found', perm with
  | [], _, perm => rw [perm.nil_eq]
  | [_], _, perm => rw [List.singleton_perm.mp perm]
  | _ :: _ :: _, [], perm => exact absurd perm.length_eq nofun
  | _ :: _ :: _, [_], perm => exact absurd perm.length_eq nofun
  | _ :: _ :: _, _ :: _ :: _, perm => simp only [sorted_eq_of_perm (perm.map (·.place))]

/-- Enums of other names do not count. -/
theorem lookup?_congr (h : named path catalog = named path catalog') :
    lookup? path catalog = lookup? path catalog' := by
  rw [lookup?, lookup?, candidates_eq, candidates_eq, ending, ending, h]

theorem lookup?_none_iff : lookup? path catalog = .ok none ↔ named path catalog = [] := by
  rw [lookup?, candidates_eq]
  constructor
  · intro h
    split at h
    next none =>
      split at none
      · exact none
      next several =>
        split at none
        · exact none
        next some => exact absurd (List.isEmpty_iff.mpr none) some
    · cases h
    · cases h
  · intro none
    rw [none]
    rfl

/-- **An enum is found exactly if it is chosen.** -/
theorem lookup?_ok_iff :
    lookup? path catalog = .ok (some source) ↔ Chosen path catalog source := by
  have found : lookup? path catalog = .ok (some source)
      ↔ candidates (dropRoots (Text.segments path)) catalog = [source] := by
    rw [lookup?]
    split <;> simp_all
  rw [found, candidates_eq, Chosen]
  by_cases one : (named path catalog).length ≤ 1
  · rw [if_pos one]
    refine ⟨.inl, fun h => h.elim id fun fits => ?_⟩
    -- what fits is named, and at most one is
    have mem : source ∈ named path catalog :=
      (List.mem_filter.mp (fits ▸ List.mem_singleton_self source)).1
    match eq : named path catalog, one, mem with
    | [other], _, mem => rw [List.mem_singleton.mp mem]
    | _ :: _ :: _, one, _ => exact absurd one (by simp)
  · have notOne : named path catalog ≠ [source] := fun eq => one (eq ▸ Nat.le_refl 1)
    rw [if_neg one]
    by_cases none : (ending path catalog).isEmpty
    · rw [if_pos none, List.isEmpty_iff.mp none]
      simp [notOne]
    · rw [if_neg none]
      exact ⟨.inr, fun h => h.resolve_left notOne⟩

end Lookup

/-! ## §4. Two catalogs. -/

/-- Where an enum was found. -/
inductive Scope where
  /-- In the input. -/
  | own
  /-- In a schema file. -/
  | schema
  deriving Repr, DecidableEq

/-- The enum that a path selects for reading. -/
def select (path : Text) (own schema : List EnumSource) : Except Cause (Scope × EnumSource) := do
  match ← lookup? path own with
  | some source => return (.own, source)
  | none =>
      match ← lookup? path schema with
      | some source => return (.schema, source)
      | none => .error (.unknownEnum path)

/-- The selected enum read: a fault in a schema file is reported at `index`. -/
def readSelected (index : Nat) : Scope × EnumSource → Except Fault EnumDecl
  | (.own, source) => EnumDecl.read source.text source.item
  | (.schema, source) => readSchema source index

theorem resolve_eq (path : Text) (own schema : List EnumSource) (index : Nat) :
    resolve path own schema index
      = reportAt index (select path own schema) >>= readSelected index := by
  rw [resolve, select]
  match lookup? path own with
  | .error _ => rfl
  | .ok (some _) => rfl
  | .ok none =>
      match lookup? path schema with
      | .error _ => rfl
      | .ok (some _) => rfl
      | .ok none => rfl

theorem select_own_iff {path : Text} {own schema : List EnumSource} {source : EnumSource} :
    select path own schema = .ok (.own, source) ↔ Chosen path own source := by
  rw [← lookup?_ok_iff, select]
  match lookup? path own with
  | .error _ => exact ⟨nofun, nofun⟩
  | .ok (some _) => exact ⟨fun h => by cases h; rfl, fun h => by cases h; rfl⟩
  | .ok none =>
      match lookup? path schema with
      | .error _ => exact ⟨nofun, nofun⟩
      | .ok (some _) => exact ⟨nofun, nofun⟩
      | .ok none => exact ⟨nofun, nofun⟩

theorem select_schema_iff {path : Text} {own schema : List EnumSource} {source : EnumSource} :
    select path own schema = .ok (.schema, source)
      ↔ named path own = [] ∧ Chosen path schema source := by
  rw [← lookup?_none_iff, ← lookup?_ok_iff, select]
  match lookup? path own with
  | .error _ => exact ⟨nofun, fun h => nomatch h.1⟩
  | .ok (some _) => exact ⟨nofun, fun h => nomatch h.1⟩
  | .ok none =>
      match lookup? path schema with
      | .error _ => exact ⟨nofun, fun h => nomatch h.2⟩
      | .ok (some _) => exact ⟨fun h => by cases h; exact ⟨rfl, rfl⟩, fun h => by cases h.2; rfl⟩
      | .ok none => exact ⟨nofun, fun h => nomatch h.2⟩

theorem resolve_congr {path : Text} {own own' schema schema' : List EnumSource}
    (sameOwn : lookup? path own = lookup? path own')
    (sameSchema : lookup? path schema = lookup? path schema') (index : Nat) :
    resolve path own schema index = resolve path own' schema' index := by
  rw [resolve, resolve, sameOwn, sameSchema]

/-- An own enum of the name settles the path, with or without a fault. -/
theorem resolve_own {path : Text} {own : List EnumSource} (some : named path own ≠ [])
    (schema schema' : List EnumSource) (index : Nat) :
    resolve path own schema index = resolve path own schema' index := by
  rw [resolve, resolve]
  match found : lookup? path own with
  | .error _ => rfl
  | .ok (.some _) => rfl
  | .ok none => exact absurd (lookup?_none_iff.mp found) some

/-- **What a resolved path depends on.**  For the outcome, a declaration or a fault,

* the order of the own enums and that of the schema files' does not matter,
* the schema files do not matter if an own enum has the path's last segment for a name,
* enums of other names do not matter.

An enum is read exactly if it is chosen in the first of the two catalogs that has one of the
name: alone of its name, or else alone among those whose module path ends in the stem, what is
left of the path without the roots in front. -/
theorem resolve_relevant (path : Text) (own schema : List EnumSource) (index : Nat) :
    (∀ own' schema', own.Perm own' → schema.Perm schema' →
        resolve path own' schema' index = resolve path own schema index)
      ∧ ((∃ source ∈ own, source.item.name = lastSegment path) →
          ∀ schema', resolve path own schema' index = resolve path own schema index)
      ∧ (∀ own' schema', named path own' = named path own →
          named path schema' = named path schema →
          resolve path own' schema' index = resolve path own schema index)
      ∧ resolve path own schema index
          = reportAt index (select path own schema) >>= readSelected index
      ∧ (∃ before, Text.segments path = before ++ stem path ∧ (∀ root ∈ before, root ∈ roots)
          ∧ ∀ first next rest, stem path = first :: next :: rest → first ∉ roots)
      ∧ ∀ source, (select path own schema = .ok (.own, source) ↔ Chosen path own source)
          ∧ (select path own schema = .ok (.schema, source)
              ↔ named path own = [] ∧ Chosen path schema source) := by
  refine ⟨fun own' schema' hown hschema => ?_, fun ⟨source, mem, name⟩ schema' => ?_,
    fun own' schema' hown hschema => ?_, resolve_eq path own schema index,
    dropRoots_spec (Text.segments path), fun source => ⟨select_own_iff, select_schema_iff⟩⟩
  · exact resolve_congr (lookup?_perm hown).symm (lookup?_perm hschema).symm index
  · have isNamed : source ∈ named path own := List.mem_filter.mpr ⟨mem, decide_eq_true name⟩
    exact resolve_own (List.ne_nil_of_mem isNamed) schema' schema index
  · exact resolve_congr (lookup?_congr hown) (lookup?_congr hschema) index

/-- The enum of `mod m { enum Shape { } }`, where a letter `name` stands for `m`. -/
def shapeIn (name : Text) : EnumSource :=
  ⟨"in.rs", "mod " ++ name ++ " \x7b enum Shape \x7b \x7d \x7d",
    { kind := .enum, name := "Shape", visibility := [], start := 8, bodyIndex := 18, attrs := [],
      module := [name] }⟩

/-- Of two enums of one name the written module tells which is meant, in whatever order they
stand and whatever the schema files hold. -/
theorem shapeIn_selected :
    select "crate::n::Shape" [shapeIn "m", shapeIn "n"] [] = .ok (.own, shapeIn "n")
      ∧ ∀ schema, resolve "crate::n::Shape" [shapeIn "n", shapeIn "m"] schema 0
          = resolve "crate::n::Shape" [shapeIn "m", shapeIn "n"] [] 0 := by
  obtain ⟨order, _, _, _, _, selected⟩ :=
    resolve_relevant "crate::n::Shape" [shapeIn "m", shapeIn "n"] [] 0
  refine ⟨(selected (shapeIn "n")).1.mpr (.inr (by decide)), fun schema => ?_⟩
  have own : ∃ source ∈ [shapeIn "n", shapeIn "m"],
      source.item.name = lastSegment "crate::n::Shape" := ⟨shapeIn "n", by simp, by decide⟩
  obtain ⟨_, precedence, _⟩ := resolve_relevant "crate::n::Shape" [shapeIn "n", shapeIn "m"] [] 0
  rw [precedence own schema]
  exact order _ _ (.swap _ _ _) (.refl _)

end Catalog

end EnumExtract
