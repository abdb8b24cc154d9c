/-
  EnumExtract.Proofs.Collisions
  ────────────────────────────────
  When no names can be chosen for the structs of an enum, and which ones are.

  All names of structs are made in the same way, by what is written in front of
  a variant's name and behind it.  So structs of two variants have one name
  just where the variants do, and the table of owners, which is keyed by the
  structs, is a table of the variants that have been passed.

  What carries the induction is that the variants that have been passed are
  *clear*: none of their structs has the enum's name, and their own names are
  distinct.  The first variant at which that ends is the one that is reported.

  Main results:
    • `owner?_entries`   the owner of a struct's name is the variant of that name,
    • `foldlM_add_run`   names are chosen up to the first collision,
    • `ofEnum_outcome`   when names are chosen, which ones, and what is reported
                         where they are not.
-/
import EnumExtract.Proofs.Extraction

namespace EnumExtract

/-! ## §1. Names of structs and names of variants. -/

theorem ExtractOptions.structName_injective (options : ExtractOptions) :
    Function.Injective options.structName := by
  intro name name' same
  unfold structName at same
  exact List.append_cancel_left (List.append_cancel_right same)

/-- The variants that structs are made of. -/
def EnumDecl.extractedVariants (enum : EnumDecl) : List Variant :=
  enum.variants.filter (!·.excluded)

namespace GeneratedNames

variable {enum : Text} {options : ExtractOptions} {before variants : List Variant} {v : Variant}

/-- Structs have distinct names just where their variants do. -/
theorem nodup_structName_iff : (variants.map fun v => options.structName v.name).Nodup
    ↔ (variants.map (·.name)).Nodup := by
  have composed : (variants.map fun v => options.structName v.name)
      = (variants.map (·.name)).map options.structName := by
    rw [List.map_map]
    rfl
  rw [composed, List.nodup_map_iff options.structName_injective]

/-- **The owner of a struct's name** among the variants that have been passed is the variant
that the struct is made of. -/
theorem owner?_entries (name : Text) (before : List Variant) :
    owner? (options.structName name) (before.map (entry options))
      = if name ∈ before.map (·.name) then some name else none := by
  unfold owner?
  induction before with
  | nil => rfl
  | cons v rest ih =>
      rw [List.map_cons, List.map_cons, List.find?_cons]
      by_cases same : v.name = name
      · have found : decide ((entry options v).2 = options.structName name) = true :=
          decide_eq_true (congrArg options.structName same)
        rw [found, if_pos (by rw [same]; exact List.mem_cons_self)]
        exact congrArg some same
      · have passed : decide ((entry options v).2 = options.structName name) = false :=
          decide_eq_false fun eq => same (options.structName_injective eq)
        have mem : name ∈ v.name :: rest.map (·.name) ↔ name ∈ rest.map (·.name) := by
          rw [List.mem_cons, or_iff_right (Ne.symm same)]
        simp only [passed, mem]
        exact ih

/-! ## §2. Collisions. -/

/-- The variant's struct would have the name of the enum or of a struct that has been named. -/
def Collides (enum : Text) (options : ExtractOptions) (before : List Variant) (v : Variant) : Prop :=
  options.structName v.name = enum ∨ v.name ∈ before.map (·.name)

/-- No struct of these variants has the enum's name, and no two of the variants share a name. -/
def Clear (enum : Text) (options : ExtractOptions) (variants : List Variant) : Prop :=
  (∀ v ∈ variants, options.structName v.name ≠ enum) ∧ (variants.map (·.name)).Nodup

theorem Clear.nil : Clear enum options [] :=
  ⟨nofun, List.nodup_nil⟩

theorem Clear.snoc (clear : Clear enum options before) (free : ¬ Collides enum options before v) :
    Clear enum options (before ++ [v]) := by
  obtain ⟨own, fresh⟩ := not_or.mp free
  refine ⟨fun w mem => ?_, ?_⟩
  · cases List.mem_append.mp mem with
    | inl mem => exact clear.1 w mem
    | inr mem => rw [List.mem_singleton.mp mem]; exact own
  · rw [List.map_append, List.map_singleton, List.nodup_append]
    refine ⟨clear.2, List.nodup_singleton _, fun name mem name' mem' => ?_⟩
    rw [List.mem_singleton.mp mem']
    exact fun same => fresh (same ▸ mem)

/-- Variants with a collision among them are not clear. -/
theorem not_clear_of_collides {after : List Variant} (h : Collides enum options before v) :
    ¬ Clear enum options (before ++ v :: after) := by
  rintro ⟨owns, distinct⟩
  rw [List.map_append, List.map_cons, List.nodup_append] at distinct
  cases h with
  | inl own => exact owns v (List.mem_append_right _ List.mem_cons_self) own
  | inr mem => exact distinct.2.2 _ mem _ List.mem_cons_self rfl

/-- What is reported at a collision.  The enum's name comes before those of other structs. -/
def collision (enum : Text) (options : ExtractOptions) (v : Variant) : Fault where
  cause :=
    if options.structName v.name = enum then .collidesWithEnum (options.structName v.name) v.name enum
    else .collidesWithVariant (options.structName v.name) v.name v.name
  index := v.index
  source := none

theorem collision_code : (collision enum options v).cause.code = .nameCollision := by
  unfold collision
  split <;> rfl

theorem add_of_collides (h : Collides enum options before v) :
    add enum options (before.map (entry options)) v = .error (collision enum options v) := by
  unfold add collision
  -- the enum's name is looked for first, and only then the owner
  by_cases own : options.structName v.name = enum
  · simp only [own, if_true]
  · have mem : v.name ∈ before.map (·.name) := h.resolve_left own
    simp only [own, if_false, owner?_entries, if_pos mem]

theorem add_of_free (h : ¬ Collides enum options before v) :
    add enum options (before.map (entry options)) v = .ok ((before ++ [v]).map (entry options)) := by
  obtain ⟨own, fresh⟩ := not_or.mp h
  unfold add
  simp only [own, if_false, owner?_entries, if_neg fresh]
  rw [List.map_append]
  rfl

/-- **Names are chosen up to the first collision.**  The variants are clear up to there, and
where there is none all of them are. -/
theorem foldlM_add_run (clear : Clear enum options before) (variants : List Variant) :
    (Clear enum options (before ++ variants)
        ∧ variants.foldlM (add enum options) (before.map (entry options))
          = .ok ((before ++ variants).map (entry options)))
      ∨ ∃ passed v after, variants = passed ++ v :: after
        ∧ Clear enum options (before ++ passed) ∧ Collides enum options (before ++ passed) v
        ∧ variants.foldlM (add enum options) (before.map (entry options))
          = .error (collision enum options v) := by
  induction variants generalizing before with
  | nil =>
      rw [List.append_nil]
      exact .inl ⟨clear, rfl⟩
  | cons v rest ih =>
      rw [List.foldlM_cons]
      by_cases h : Collides enum options before v
      · refine .inr ⟨[], v, rest, rfl, ?_, ?_, ?_⟩
        · rwa [List.append_nil]
        · rwa [List.append_nil]
        · rw [add_of_collides h]
          rfl
      · -- the variant takes its name and belongs to those that have been passed
        have run := ih (clear.snoc h)
        rw [List.append_assoc, List.singleton_append] at run
        rw [add_of_free h]
        cases run with
        | inl run => exact .inl run
        | inr run =>
            obtain ⟨passed, w, after, rfl, clear', collides, run⟩ := run
            rw [List.append_assoc, List.singleton_append] at clear' collides
            exact .inr ⟨v :: passed, w, after, rfl, clear', collides, run⟩

/-! ## §3. The names of an enum's structs. -/

/-- A name that no variant has is not looked up. -/
theorem identifier?_entries_eq_none {name : Text} (h : name ∉ variants.map (·.name)) :
    identifier? ⟨enum, variants.map (entry options)⟩ name = none := by
  unfold identifier?
  rw [List.lookup_eq_none_iff]
  intro p mem
  obtain ⟨v, memv, rfl⟩ := List.mem_map.mp (List.mem_reverse.mp mem)
  exact bne_iff_ne.mpr fun same => h (List.mem_map.mpr ⟨v, memv, same.symm⟩)

/-- The names that an enum's structs are given: those of the variants, in their order. -/
structure Chosen (enum : Text) (options : ExtractOptions) (variants : List Variant)
    (g : GeneratedNames) : Prop where
  enum : g.enum = enum
  names : g.names = variants.map fun v => (v.name, options.leading ++ v.name ++ options.trailing)
  distinct : (g.names.map (·.2)).Nodup
  apart : g.enum ∉ g.names.map (·.2)
  /-- Every variant is looked up, -/
  found : ∀ v ∈ variants, g.identifier? v.name = some (options.leading ++ v.name ++ options.trailing)
  /-- and no other name is. -/
  missing : ∀ name, name ∉ variants.map (·.name) → g.identifier? name = none

theorem chosen_of_clear (clear : Clear enum options variants) :
    Chosen enum options variants ⟨enum, variants.map (entry options)⟩ := by
  have structs : (variants.map (entry options)).map (·.2)
      = variants.map fun v => options.structName v.name := by
    rw [List.map_map]
    rfl
  have distinct : (variants.map fun v => options.structName v.name).Nodup :=
    nodup_structName_iff.mpr clear.2
  refine ⟨rfl, rfl, ?_, ?_, fun v mem => identifier?_entries rfl distinct mem,
    fun name missing => identifier?_entries_eq_none missing⟩
  · rw [structs]
    exact distinct
  · rw [structs]
    intro mem
    obtain ⟨v, memv, own⟩ := List.mem_map.mp mem
    exact clear.1 v memv own

/-- **When names are chosen for the structs of an enum, and which ones.**  They are not where a
struct would have the enum's name or two variants that are extracted share theirs.  What is
reported then is a collision, at the first variant at which one arises. -/
theorem ofEnum_outcome (enum : EnumDecl) (options : ExtractOptions) :
    ((∃ fault, ofEnum enum options = .error fault) ↔
        (∃ v ∈ enum.extractedVariants, options.leading ++ v.name ++ options.trailing = enum.name)
          ∨ ¬ (enum.extractedVariants.map (·.name)).Nodup)
      ∧ (∀ fault, ofEnum enum options = .error fault → fault.cause.code = .nameCollision
          ∧ ∃ before v after, enum.extractedVariants = before ++ v :: after
            ∧ Clear enum.name options before ∧ Collides enum.name options before v
            ∧ fault = collision enum.name options v)
      ∧ (∀ g, ofEnum enum options = .ok g → Chosen enum.name options enum.extractedVariants g) := by
  have clear_iff : ¬ Clear enum.name options enum.extractedVariants ↔
      (∃ v ∈ enum.extractedVariants, options.leading ++ v.name ++ options.trailing = enum.name)
        ∨ ¬ (enum.extractedVariants.map (·.name)).Nodup := by
    rw [Clear, not_and_or]
    simp only [not_forall, not_not, exists_prop, ExtractOptions.structName]
  have start : ofEnum enum options = (enum.extractedVariants.foldlM (add enum.name options) []
      >>= fun names => pure ⟨enum.name, names⟩) := rfl
  have none : Clear enum.name options [] := .nil
  rw [← clear_iff, start]
  cases foldlM_add_run none enum.extractedVariants with
  | inl run =>
      obtain ⟨clear, run⟩ := run
      rw [List.map_nil, List.nil_append] at run
      rw [run]
      refine ⟨⟨nofun, fun h => absurd clear h⟩, nofun, fun g h => ?_⟩
      rw [← Except.ok.inj h]
      exact chosen_of_clear clear
  | inr run =>
      obtain ⟨passed, v, after, split, clear, collides, run⟩ := run
      rw [List.nil_append] at clear collides
      rw [List.map_nil] at run
      rw [run]
      refine ⟨⟨fun _ => ?_, fun _ => ⟨_, rfl⟩⟩, fun fault h => ?_, nofun⟩
      · rw [split]
        exact not_clear_of_collides collides
      · rw [← Except.error.inj h]
        exact ⟨collision_code, passed, v, after, split, clear, collides, rfl⟩

/-- A variant that is excluded takes no name; the second of those that are not is reported. -/
example : ofEnum ⟨"E", [], [⟨"A", ⟨.unit, []⟩, [], true, 4, []⟩, ⟨"A", ⟨.unit, []⟩, [], false, 7, []⟩,
      ⟨"A", ⟨.unit, []⟩, [], false, 9, []⟩], [], 0, 0, [], []⟩ ⟨"My", [], false⟩
    = .error ⟨.collidesWithVariant "MyA" "A" "A", 9, none⟩ := by rfl

end GeneratedNames

end EnumExtract
