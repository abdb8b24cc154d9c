/-
  EnumExtract.Proofs.Merging
  ────────────────────────────────
  Merging the metadata of a declaration.

  A merge keeps three things of a list of entries: its docs, the traits of its
  derives, each once, and its other entries, each text once.  What is kept once
  is kept where it is first seen, so that a list which comes behind cannot
  change what stands there already.  Two lists that agree in the three things
  have the same merge, and the laws of merging are laws of keeping things once.

  Main results:
    • `Metadata.merge_laws`         the form of a merge, and that merging again
                                    or merging earlier changes nothing,
    • `Metadata.merge_others`       which of the other entries are kept.
-/
import EnumExtract.Output.Record
import Mathlib.Data.List.Induction
import Mathlib.Data.List.Nodup

namespace EnumExtract

/-! ## §1. Keeping each key once. -/

section
variable {α β : Type} [BEq β] {key : α → β} {x : α} {xs ys : List α}

theorem eraseDupsBy_loop_append (r : α → α → Bool) (xs ys known : List α) :
    List.eraseDupsBy.loop r (xs ++ ys) known
      = List.eraseDupsBy.loop r ys (List.eraseDupsBy.loop r xs known).reverse := by
  induction xs generalizing known with
  | nil =>
      show _ = List.eraseDupsBy.loop r ys known.reverse.reverse
      rw [List.reverse_reverse]
      rfl
  | cons x xs ih =>
      show List.eraseDupsBy.loop r (x :: (xs ++ ys)) known = _
      rw [List.eraseDupsBy.loop, List.eraseDupsBy.loop]
      split
      · exact ih known
      · exact ih (x :: known)

/-- The elements whose key does not occur before them. -/
def firsts (key : α → β) (xs : List α) : List α :=
  xs.eraseDupsBy fun a b => key a == key b

theorem firsts_snoc_any : firsts key (xs ++ [x])
    = if (firsts key xs).any (key x == key ·) then firsts key xs else firsts key xs ++ [x] := by
  show List.eraseDupsBy.loop _ (xs ++ [x]) [] = _
  rw [eraseDupsBy_loop_append, List.eraseDupsBy.loop, List.any_reverse]
  show (match (firsts key xs).any (key x == key ·) with
    | true => List.eraseDupsBy.loop _ [] (firsts key xs).reverse
    | false => List.eraseDupsBy.loop _ [] (x :: (firsts key xs).reverse)) = _
  cases (firsts key xs).any (key x == key ·) with
  | true => exact List.reverse_reverse _
  | false =>
      show (x :: (firsts key xs).reverse).reverse = firsts key xs ++ [x]
      rw [List.reverse_cons, List.reverse_reverse]

theorem head?_firsts : (firsts key xs).head? = xs.head? := by
  cases xs with
  | nil => rfl
  | cons x xs =>
      rw [firsts, List.eraseDupsBy_cons]
      rfl

theorem firsts_sublist : (firsts key xs).Sublist xs := by
  induction xs using List.reverseRecOn with
  | nil => exact .slnil
  | append_singleton xs x ih =>
      rw [firsts_snoc_any]
      split
      · exact ih.trans (List.sublist_append_left _ _)
      · exact ih.append (.refl _)

variable [LawfulBEq β]

/-- No key is lost. -/
theorem mem_map_firsts {k : β} : k ∈ (firsts key xs).map key ↔ k ∈ xs.map key := by
  induction xs using List.reverseRecOn with
  | nil => rfl
  | append_singleton xs x ih =>
      rw [firsts_snoc_any]
      by_cases seen : (firsts key xs).any (key x == key ·) = true
      · have before : key x ∈ xs.map key := by
          obtain ⟨y, mem, same⟩ := List.any_eq_true.mp seen
          rw [eq_of_beq same]
          exact List.mem_map_of_mem (firsts_sublist.subset mem)
        rw [if_pos seen, ih, List.map_append, List.mem_append]
        refine ⟨Or.inl, fun h => h.elim id fun last => ?_⟩
        rw [List.mem_singleton.mp last]
        exact before
      · rw [if_neg seen, List.map_append, List.map_append, List.mem_append, List.mem_append, ih]

/-- One more element is kept if its key is new. -/
theorem firsts_snoc : firsts key (xs ++ [x])
    = if key x ∈ xs.map key then firsts key xs else firsts key xs ++ [x] := by
  rw [firsts_snoc_any]
  refine if_congr ?_ rfl rfl
  rw [← mem_map_firsts, List.any_eq_true, List.mem_map]
  exact exists_congr fun y => and_congr_right fun _ => beq_iff_eq.trans eq_comm

theorem firsts_snoc_of_mem (seen : key x ∈ xs.map key) : firsts key (xs ++ [x]) = firsts key xs := by
  rw [firsts_snoc, if_pos seen]

theorem firsts_snoc_of_notMem (new : key x ∉ xs.map key) :
    firsts key (xs ++ [x]) = firsts key xs ++ [x] := by
  rw [firsts_snoc, if_neg new]

theorem nodup_firsts : ((firsts key xs).map key).Nodup := by
  induction xs using List.reverseRecOn with
  | nil => exact List.nodup_nil
  | append_singleton xs x ih =>
      by_cases seen : key x ∈ xs.map key
      · rw [firsts_snoc_of_mem seen]
        exact ih
      · have new : key x ∉ (firsts key xs).map key := fun mem => seen (mem_map_firsts.mp mem)
        rw [firsts_snoc_of_notMem seen, List.map_append, List.map_singleton, List.nodup_append]
        refine ⟨ih, List.nodup_singleton _, fun k mem k' last same => new ?_⟩
        rwa [← List.mem_singleton.mp last, ← same]

/-- Where each key occurs once, everything is kept. -/
theorem firsts_of_nodup (once : (xs.map key).Nodup) : firsts key xs = xs := by
  induction xs using List.reverseRecOn with
  | nil => rfl
  | append_singleton xs x ih =>
      rw [List.map_append, List.map_singleton, List.nodup_append] at once
      obtain ⟨before, _, apart⟩ := once
      have new : key x ∉ xs.map key := fun mem => apart _ mem _ (List.mem_singleton.mpr rfl) rfl
      rw [firsts_snoc_of_notMem new, ih before]

/-- What has been sifted before is sifted as if it had not been. -/
theorem firsts_firsts_append : firsts key (firsts key xs ++ ys) = firsts key (xs ++ ys) := by
  induction ys using List.reverseRecOn with
  | nil =>
      rw [List.append_nil, List.append_nil]
      exact firsts_of_nodup nodup_firsts
  | append_singleton ys y ih =>
      rw [← List.append_assoc, ← List.append_assoc, firsts_snoc, firsts_snoc, ih]
      refine if_congr ?_ rfl rfl
      rw [List.map_append, List.map_append, List.mem_append, List.mem_append, mem_map_firsts]

/-- What comes behind changes nothing before it. -/
theorem exists_firsts_append : ∃ later, firsts key (xs ++ ys) = firsts key xs ++ later ∧ later.Sublist ys := by
  induction ys using List.reverseRecOn with
  | nil => exact ⟨[], by rw [List.append_nil, List.append_nil], .slnil⟩
  | append_singleton ys y ih =>
      obtain ⟨later, eq, sub⟩ := ih
      rw [← List.append_assoc]
      by_cases seen : key y ∈ (xs ++ ys).map key
      · rw [firsts_snoc_of_mem seen]
        exact ⟨later, eq, sub.trans (List.sublist_append_left _ _)⟩
      · rw [firsts_snoc_of_notMem seen, eq]
        exact ⟨later ++ [y], List.append_assoc _ _ _, sub.append (.refl _)⟩
end

/-- The second list is the first one without repetitions, everything in the order in which it is
first seen. -/
structure FirstSeen (xs ys : List Text) : Prop where
  mem : ∀ x, x ∈ ys ↔ x ∈ xs
  order : ys.Pairwise fun x y => xs.idxOf x < xs.idxOf y

theorem firstSeen_firsts (xs : List Text) : FirstSeen xs (firsts id xs) := by
  have mem {xs : List Text} (x : Text) : x ∈ firsts id xs ↔ x ∈ xs := by
    have h : x ∈ (firsts id xs).map id ↔ x ∈ xs.map id := mem_map_firsts
    rwa [List.map_id, List.map_id] at h
  refine ⟨mem, ?_⟩
  induction xs using List.reverseRecOn with
  | nil => exact .nil
  | append_singleton xs x ih =>
      have older {y : Text} (h : y ∈ firsts id xs) : (xs ++ [x]).idxOf y = xs.idxOf y :=
        List.idxOf_append_of_mem ((mem y).mp h)
      have before : (firsts id xs).Pairwise fun y z => (xs ++ [x]).idxOf y < (xs ++ [x]).idxOf z :=
        ih.imp_of_mem fun memY memZ lt => by rwa [older memY, older memZ]
      rw [firsts_snoc, List.map_id, id]
      by_cases seen : x ∈ xs
      · rw [if_pos seen]
        exact before
      · rw [if_neg seen]
        refine List.pairwise_append.mpr ⟨before, List.pairwise_singleton _ _, fun y memY z memZ => ?_⟩
        rw [List.mem_singleton.mp memZ, older memY, List.idxOf_append_of_notMem seen]
        exact Nat.lt_of_lt_of_le (List.idxOf_lt_length_of_mem ((mem y).mp memY)) (Nat.le_add_right _ _)

/-! ## §2. What a merge keeps. -/

namespace Metadata

variable {a b : List Metadata} {category : MetadataCategory}

/-- The traits of the derives. -/
def traitsOf (entries : List Metadata) : List Text :=
  (inCategory .derive entries).flatMap (·.traits)

/-- The entries that are neither docs nor derives, those equal but for blanks once. -/
def othersOf (entries : List Metadata) : List Metadata :=
  firsts (Text.unspaced ·.text) (inCategory .other entries)

/-- The derive of the traits, if there are any. -/
def deriveOf (traits : List Text) : List Metadata :=
  if traits.isEmpty then [] else [derive traits]

theorem merge_eq (a : List Metadata) :
    merge a = inCategory .doc a ++ deriveOf (firsts id (traitsOf a)) ++ othersOf a :=
  rfl

theorem inCategory_append : inCategory category (a ++ b) = inCategory category a ++ inCategory category b :=
  List.filter_append ..

theorem traitsOf_append : traitsOf (a ++ b) = traitsOf a ++ traitsOf b := by
  rw [traitsOf, inCategory_append, List.flatMap_append]
  rfl

theorem mem_inCategory {e : Metadata} : e ∈ inCategory category a ↔ e ∈ a ∧ e.category = category := by
  rw [inCategory, List.mem_filter, decide_eq_true_iff]

/-- Of entries of one category, all are of a category or none. -/
theorem inCategory_of_uniform {category' : MetadataCategory} (h : ∀ e ∈ a, e.category = category') :
    inCategory category a = if category' = category then a else [] := by
  split
  · next same => exact List.filter_eq_self.mpr fun e mem => decide_eq_true ((h e mem).trans same)
  · next other =>
    refine List.filter_eq_nil_iff.mpr fun e mem same => other ?_
    rw [← h e mem, of_decide_eq_true same]

theorem deriveOf_category (traits : List Text) : ∀ e ∈ deriveOf traits, e.category = .derive := by
  unfold deriveOf
  split
  · nofun
  · exact List.forall_mem_singleton.mpr rfl

theorem traits_deriveOf (traits : List Text) : (deriveOf traits).flatMap (·.traits) = traits := by
  unfold deriveOf
  split
  · next none => exact (List.isEmpty_iff.mp none).symm
  · show traits ++ [] = traits
    exact List.append_nil _

theorem othersOf_category : ∀ e ∈ othersOf a, e.category = .other :=
  fun _ mem => (mem_inCategory.mp (firsts_sublist.subset mem)).2

theorem inCategory_merge (category : MetadataCategory) (a : List Metadata) :
    inCategory category (merge a) = (if .doc = category then inCategory .doc a else [])
      ++ (if .derive = category then deriveOf (firsts id (traitsOf a)) else [])
      ++ (if .other = category then othersOf a else []) := by
  have docs : ∀ e ∈ inCategory .doc a, e.category = .doc := fun _ mem => (mem_inCategory.mp mem).2
  rw [merge_eq, inCategory_append, inCategory_append, inCategory_of_uniform docs,
    inCategory_of_uniform (deriveOf_category _), inCategory_of_uniform othersOf_category]

theorem docs_merge : inCategory .doc (merge a) = inCategory .doc a := by
  simp [inCategory_merge]

theorem traits_merge : traitsOf (merge a) = firsts id (traitsOf a) := by
  simp [traitsOf, inCategory_merge, traits_deriveOf]

theorem others_merge : inCategory .other (merge a) = othersOf a := by
  simp [inCategory_merge]

/-- A merge makes no entry but the derive. -/
theorem mem_merge {e : Metadata} (mem : e ∈ merge a) :
    e ∈ a ∧ e.category ≠ .derive ∨ e = derive (firsts id (traitsOf a)) := by
  rw [merge_eq, List.mem_append, List.mem_append] at mem
  rcases mem with (doc | derive) | other
  · obtain ⟨mem, category⟩ := mem_inCategory.mp doc
    exact .inl ⟨mem, by rw [category]; decide⟩
  · unfold deriveOf at derive
    split at derive
    · cases derive
    · exact .inr (List.mem_singleton.mp derive)
  · obtain ⟨mem, category⟩ := mem_inCategory.mp (firsts_sublist.subset other)
    exact .inl ⟨mem, by rw [category]; decide⟩

end Metadata

/-- Of the entries of a struct, only the variant's own are not derives. -/
theorem Variant.mem_of_structMetadata {v : Variant} {enumMetadata metadata : List Metadata}
    {m : Metadata} (h : v.structMetadata? enumMetadata = some metadata) (mem : m ∈ metadata)
    (kept : m.category ≠ .derive) : m ∈ v.metadata := by
  unfold structMetadata? at h
  split at h
  · cases h
  · cases h
    rcases Metadata.mem_merge mem with ⟨mem, _⟩ | rfl
    · rcases List.mem_append.mp mem with own | derive
      · exact own
      · exact absurd (Metadata.mem_inCategory.mp derive).2 kept
    · exact absurd rfl kept

/-! ## §3. The laws of merging. -/

namespace Metadata

variable {a b : List Metadata}

/-- Merging earlier changes nothing: only the three things that a merge keeps matter. -/
theorem merge_merge_append (a b : List Metadata) : merge (merge a ++ b) = merge (a ++ b) := by
  have docs : inCategory .doc (merge a ++ b) = inCategory .doc (a ++ b) := by
    rw [inCategory_append, inCategory_append, docs_merge]
  have traits : firsts id (traitsOf (merge a ++ b)) = firsts id (traitsOf (a ++ b)) := by
    rw [traitsOf_append, traitsOf_append, traits_merge, firsts_firsts_append]
  have others : othersOf (merge a ++ b) = othersOf (a ++ b) := by
    rw [othersOf, inCategory_append, others_merge, othersOf, firsts_firsts_append, ← inCategory_append]
    rfl
  rw [merge_eq (merge a ++ b), docs, traits, others, merge_eq]

theorem merge_merge (a : List Metadata) : merge (merge a) = merge a := by
  have h := merge_merge_append a []
  rwa [List.append_nil, List.append_nil] at h

/-- What is kept of the other entries. -/
theorem othersOf_spec (a : List Metadata) :
    (othersOf a).Sublist (inCategory .other a) ∧ ((othersOf a).map (·.text)).Nodup
      ∧ (othersOf a).head? = (inCategory .other a).head? := by
  refine ⟨firsts_sublist, ?_, head?_firsts⟩
  have once : ((othersOf a).map (Text.unspaced ·.text)).Nodup := nodup_firsts
  rw [← Function.comp_def, ← List.map_map] at once
  exact once.of_map _

/-- **Docs, one derive of all traits, then the other entries**, and merging before merging changes
nothing.  The struct made of a variant has the variant's docs and other entries, and the traits of
the variant before those of the enum. -/
theorem merge_laws (a b : List Metadata) :
    (∃ traits others, merge a = inCategory .doc a ++ deriveOf traits ++ others
      ∧ FirstSeen (traitsOf a) traits ∧ others.Sublist (inCategory .other a)
      ∧ (others.map (·.text)).Nodup ∧ others.head? = (inCategory .other a).head?)
    ∧ merge (merge a) = merge a
    ∧ merge (merge a ++ b) = merge (a ++ b)
    ∧ ∀ (v : Variant) (enumMetadata : List Metadata), v.excluded = false →
        ∃ metadata, v.structMetadata? enumMetadata = some metadata
          ∧ (∀ e ∈ metadata, e.category ≠ .derive → e ∈ v.metadata)
          ∧ FirstSeen (traitsOf v.metadata ++ traitsOf enumMetadata) (traitsOf metadata) := by
  refine ⟨⟨_, _, merge_eq a, firstSeen_firsts _, othersOf_spec a⟩, merge_merge a, merge_merge_append a b, ?_⟩
  intro v enumMetadata included
  have merged : v.structMetadata? enumMetadata = some (merge (v.metadata ++ inCategory .derive enumMetadata)) := by
    rw [Variant.structMetadata?, included]
    rfl
  refine ⟨_, merged, fun e mem kept => v.mem_of_structMetadata merged mem kept, ?_⟩
  have same : traitsOf (inCategory .derive enumMetadata) = traitsOf enumMetadata := by
    rw [traitsOf, inCategory_of_uniform fun e mem => (mem_inCategory.mp mem).2]
    rfl
  rw [traits_merge, traitsOf_append, same]
  exact firstSeen_firsts _

/-- A variant with a doc, a derive and a note. -/
def notedVariant : Variant where
  name := "A"
  shape := ⟨.unit, []⟩
  metadata := [⟨.other, "#[note]", []⟩, derive ["Debug"], ⟨.doc, "/// A.", []⟩]
  excluded := false
  index := 0
  directives := []

theorem notedVariant_merged : ∃ metadata,
    notedVariant.structMetadata? [derive ["Clone", "Debug"], ⟨.other, "#[serde]", []⟩] = some metadata
      ∧ (∀ e ∈ metadata, e.category ≠ .derive → e ∈ notedVariant.metadata)
      ∧ FirstSeen ["Debug", "Clone", "Debug"] (traitsOf metadata) :=
  (merge_laws [] []).2.2.2 notedVariant _ rfl

/-! ## §4. Which other entries are kept. -/

/-- **An entry that is neither doc nor derive is dropped if and only if one before it has the same
text but for blanks**, wherever in the text these stand; and what comes behind it changes nothing
before it. -/
theorem merge_others (before after : List Metadata) (e : Metadata) (other : e.category = .other) :
    ∃ later, inCategory .other (merge (before ++ e :: after)) = inCategory .other (merge before)
        ++ (if ∃ x ∈ before, x.category = .other ∧ Text.unspaced x.text = Text.unspaced e.text then [] else [e])
        ++ later
      ∧ later.Sublist (inCategory .other after) := by
  have own : inCategory .other [e] = [e] := inCategory_of_uniform (List.forall_mem_singleton.mpr other)
  have seen : (Text.unspaced e.text ∈ (inCategory .other before).map (Text.unspaced ·.text))
      ↔ ∃ x ∈ before, x.category = .other ∧ Text.unspaced x.text = Text.unspaced e.text := by
    rw [List.mem_map]
    exact exists_congr fun x => by rw [mem_inCategory, and_assoc]
  have step : othersOf (before ++ [e]) = othersOf before ++ (if ∃ x ∈ before, x.category = .other
      ∧ Text.unspaced x.text = Text.unspaced e.text then [] else [e]) := by
    rw [othersOf, inCategory_append, own]
    by_cases h : ∃ x ∈ before, x.category = .other ∧ Text.unspaced x.text = Text.unspaced e.text
    · rw [firsts_snoc_of_mem (seen.mpr h), if_pos h, List.append_nil]
      rfl
    · rw [firsts_snoc_of_notMem (mt seen.mp h), if_neg h]
      rfl
  obtain ⟨later, eq, sub⟩ : ∃ later, othersOf ((before ++ [e]) ++ after) = othersOf (before ++ [e]) ++ later
      ∧ later.Sublist (inCategory .other after) := by
    rw [othersOf, inCategory_append]
    exact exists_firsts_append
  refine ⟨later, ?_, sub⟩
  rw [others_merge, others_merge, ← step, ← eq, List.append_assoc]
  rfl

/-- The same attribute with blanks and without. -/
theorem spreadNote_merged : ∃ later,
    inCategory .other
        (merge ([⟨.other, "#[note(a)]", []⟩] ++ ⟨.other, "#[note( a )]", []⟩ :: [⟨.other, "#[b]", []⟩]))
        = [⟨.other, "#[note(a)]", []⟩] ++ [] ++ later
      ∧ later.Sublist [⟨.other, "#[b]", []⟩] :=
  merge_others [⟨.other, "#[note(a)]", []⟩] [⟨.other, "#[b]", []⟩] ⟨.other, "#[note( a )]", []⟩ rfl

/-- A blank in a string is a blank as well: an attribute is dropped whose tokens are others. -/
theorem blankInString_dropped :
    FieldType.tokenize "#[note(\"a b\")]" ≠ FieldType.tokenize "#[note(\"ab\")]"
      ∧ merge [⟨.other, "#[note(\"a b\")]", []⟩, ⟨.other, "#[note(\"ab\")]", []⟩]
          = [⟨.other, "#[note(\"a b\")]", []⟩] := by
  decide

end Metadata

end EnumExtract
