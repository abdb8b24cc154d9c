/-
  EnumExtract.Proofs.Grammar.OptionForms
  ────────────────────────────────
  The two places where the options of an enum are written.

      listed       `#[extract_variant(prefix(My), no_impl)]`
      standalone   `#[prefix(My)]`, `#[no_impl]`

  The same options mean the same wherever they stand: what is collected depends
  neither on the order of the attributes and of the lists nor on what is
  listed and what is not, and an option that is given twice is refused
  although the two stand in different places.

  Main results:
    • `IsList.read`           a list of options is read as these options,
    • `Found.add_given`       one more option is taken or is a duplicate,
    • `Collects.foldlM`       so are many, entry by entry,
    • `ofGiven_perm`          the order of options plays no role,
    • `ofAttributes_gives`    what attributes come to that give options,
    • `sources_outcome`       and what they come to as they are written.
-/
import EnumExtract.Proofs.Grammar.Enums
import EnumExtract.Proofs.Grammar.OptionLists
import Mathlib.Data.List.Nodup

namespace EnumExtract

open Cursor

/-! ## §1. Options that are given. -/

/-- An option and the name that it gives. -/
inductive GivenOption where
  | leading (name : Text)
  | trailing (name : Text)
  | noImpl
  deriving DecidableEq

namespace GivenOption

def name : GivenOption → Text
  | leading _ => "prefix"
  | trailing _ => "suffix"
  | noImpl => "no_impl"

theorem name_leading (n : Text) : (leading n).name = "prefix" := rfl

theorem name_trailing (n : Text) : (trailing n).name = "suffix" := rfl

theorem name_noImpl : noImpl.name = "no_impl" := rfl

def names (os : List GivenOption) : List Text :=
  os.map name

def affix : GivenOption → Option Text
  | leading name | trailing name => some name
  | noImpl => none

/-- The text in the parentheses of an option that gives the name, or no text for no name. -/
inductive IsPadded : Option Text → Option Text → Prop where
  | absent : IsPadded none none
  | padded {b n b' : Text} (before : IsGap b) (isName : IsName n) (behind : IsGap b') :
      IsPadded (some n) (some (b ++ (n ++ b')))

/-- The option is written with this name and this value. -/
structure IsWrittenAs (o : GivenOption) (w : WrittenOption) : Prop where
  name : w.name = o.name
  value : IsPadded o.affix w.value

/-- The text lists the options, with a comma between neighbours. -/
def IsList (os : List GivenOption) (t : Text) : Prop :=
  ∃ ws, WrittenOption.OptionsAt false 0 ws t ∧ List.Forall₂ IsWrittenAs os ws

theorem isName_name (o : GivenOption) : IsName o.name := by
  cases o with
  | leading _ => exact ⟨'p', _, rfl, rfl, by decide⟩
  | trailing _ => exact ⟨'s', _, rfl, rfl, by decide⟩
  | noImpl => exact ⟨'n', _, rfl, rfl, by decide⟩

/-- A name between blanks is found when these are cut off. -/
theorem trim_padded {b n b' : Text} (before : IsGap b) (isName : IsName n) (behind : IsGap b') :
    Text.trim (b ++ (n ++ b')) = n := by
  have noBlank : ∀ ch ∈ n, isBlank ch = false := fun ch mem => not_isBlank_of_isWord (isName.isWord ch mem)
  have start : Text.trimStart (b ++ (n ++ b')) = n ++ b' := by
    obtain ⟨ch, v, rfl, first, _⟩ := isName
    rw [Text.trimStart, List.dropWhile_append_of_pos before, List.cons_append,
      List.dropWhile_cons_of_neg (by rw [noBlank ch List.mem_cons_self]; decide)]
  have stop : n.trimEnd = n := by
    rw [Text.trimEnd]
    cases last : n.reverse with
    | nil => exact absurd (List.reverse_eq_nil_iff.mp last) isName.ne_nil
    | cons ch v =>
        have mem : ch ∈ n := List.mem_reverse.mp (by rw [last]; exact List.mem_cons_self)
        rw [List.dropWhile_cons_of_neg (by rw [noBlank ch mem]; decide), ← last, List.reverse_reverse]
  rw [Text.trim, start, Text.trimEnd_append behind, stop]

theorem IsPadded.nameValue {o : WrittenOption} {n : Text} (h : IsPadded (some n) o.value) :
    o.nameValue = .ok n := by
  generalize value : o.value = v at h
  obtain _ | ⟨before, isName, behind⟩ := h
  have length : Text.nameLength n = n.length := by
    have measured := @Text.nameLength_append n [] isName nofun
    rwa [List.append_nil] at measured
  have notEmpty : n.isEmpty = false := List.isEmpty_eq_false_iff.mpr isName.ne_nil
  unfold WrittenOption.nameValue
  rw [value]
  simp only [Option.map_some, trim_padded before isName behind, notEmpty, length]
  rfl

/-! ## §2. Lists of options. -/

/-- What is given in parentheses is made of trees. -/
theorem IsPadded.trees {n : Option Text} {v : Text} (h : IsPadded n (some v)) : IsTrees v := by
  obtain _ | ⟨before, isName, behind⟩ := h
  have sealed : Text.Sealed (_ ++ []) := behind.sealed nofun
  rw [List.append_nil] at sealed
  exact .gap before (isName.trees sealed behind.trees)

theorem IsWrittenAs.trees {o : GivenOption} {w : WrittenOption} {i : Nat} {u rest : Text}
    (h : o.IsWrittenAs w) (written : w.IsWritten i u) (sealed : rest.Sealed) (trees : IsTrees rest) :
    IsTrees (u ++ rest) := by
  obtain @⟨b, n, g, b', v, before, isName, group, behind⟩ := written
  have value : IsPadded o.affix v := h.value
  have tail : IsTrees (b' ++ rest) := .gap behind trees
  have sealedTail : Text.Sealed (b' ++ rest) := behind.sealed sealed
  suffices group : IsTrees (g ++ (b' ++ rest)) ∧ Text.Sealed (g ++ (b' ++ rest)) by
    have all : IsTrees (b ++ (n ++ (g ++ (b' ++ rest)))) := .gap before (isName.trees group.2 group.1)
    simpa using all
  cases group with
  | absent => exact ⟨tail, sealedTail⟩
  | @present b'' v blank flat =>
      have paren : Text.Sealed ('(' :: (v ++ ')' :: (b' ++ rest))) := by
        rintro _ ⟨⟩
        decide
      have inner : IsTrees ('(' :: v ++ ')' :: (b' ++ rest)) := .group rfl value.trees tail
      have cut : b'' ++ '(' :: (v ++ [')']) ++ (b' ++ rest) = b'' ++ '(' :: (v ++ ')' :: (b' ++ rest)) := by simp
      rw [cut]
      exact ⟨.gap blank inner, blank.sealed paren⟩

/-- A list of options is made of trees, so that it can stand in an attribute. -/
theorem IsList.trees {os : List GivenOption} {t : Text} (h : IsList os t) : IsTrees t := by
  obtain ⟨ws, list, written⟩ := h
  generalize 0 = i at list
  induction list generalizing os with
  | blank blank => exact blank.trees
  | @last i w u here =>
      obtain _ | ⟨head, _⟩ := written
      have all : IsTrees (u ++ []) := head.trees here nofun .nil
      rwa [List.append_nil] at all
  | comma here rest ih =>
      obtain _ | ⟨head, tail⟩ := written
      refine head.trees here ?_ (.mark rfl (ih tail))
      rintro _ ⟨⟩
      decide
  | juxtaposed loose => cases loose

theorem IsWrittenAs.moved {o : GivenOption} {w : WrittenOption} {i : Nat} {u : Text} (h : o.IsWrittenAs w)
    (written : w.IsWritten i u) (j : Nat) : ∃ w', WrittenOption.IsWritten j w' u ∧ o.IsWrittenAs w' := by
  obtain ⟨before, isName, group, behind⟩ := written
  exact ⟨_, .mk before isName group behind, h.name, h.value⟩

/-- A list is the same list at another offset. -/
theorem exists_moved {spared : Bool} {os : List GivenOption} {ws : List WrittenOption} {i : Nat} {t : Text}
    (list : WrittenOption.OptionsAt spared i ws t) (written : List.Forall₂ IsWrittenAs os ws) (j : Nat) :
    ∃ ws', WrittenOption.OptionsAt spared j ws' t ∧ List.Forall₂ IsWrittenAs os ws' := by
  induction list generalizing os j with
  | blank blank =>
      cases written
      exact ⟨[], .blank blank, .nil⟩
  | last here =>
      obtain _ | ⟨head, _ | _⟩ := written
      obtain ⟨w', here', head'⟩ := head.moved here j
      exact ⟨[w'], .last here', .cons head' .nil⟩
  | comma here rest ih =>
      obtain _ | ⟨head, tail⟩ := written
      obtain ⟨w', here', head'⟩ := head.moved here j
      obtain ⟨ws', rest', tail'⟩ := ih tail _
      exact ⟨w' :: ws', .comma here' rest', .cons head' tail'⟩
  | juxtaposed loose here ends begins rest ih =>
      obtain _ | ⟨head, tail⟩ := written
      obtain ⟨w', here', head'⟩ := head.moved here j
      obtain ⟨ws', rest', tail'⟩ := ih tail _
      exact ⟨w' :: ws', .juxtaposed loose here' ends begins rest', .cons head' tail'⟩

/-- **A list of options is read as these options**, wherever it stands. -/
theorem IsList.read {os : List GivenOption} {c : Cursor} (h : IsList os c.ahead) :
    ∃ ws, WrittenOption.readList c = .ok ws ∧ List.Forall₂ IsWrittenAs os ws := by
  obtain ⟨ws, list, written⟩ := h
  obtain ⟨ws', list', written'⟩ := exists_moved list written c.offset
  exact ⟨ws', WrittenOption.readList_ok_iff.mpr list'.loosen, written'⟩

/-! ## §3. Collecting options. -/

/-- The option of that name. -/
def named? (name : Text) (os : List GivenOption) : Option GivenOption :=
  os.find? (·.name = name)

theorem isSome_named? (name : Text) (os : List GivenOption) :
    (named? name os).isSome = decide (name ∈ names os) := by
  rw [Bool.eq_iff_iff, decide_eq_true_iff, named?, List.find?_isSome, names, List.mem_map]
  simp

theorem named?_eq_none {name : Text} {os : List GivenOption} (fresh : name ∉ names os) : named? name os = none := by
  have found := isSome_named? name os
  rwa [decide_eq_false fresh, Option.isSome_eq_false_iff, Option.isNone_iff_eq_none] at found

theorem named?_snoc {os : List GivenOption} {o : GivenOption} (fresh : o.name ∉ names os) (name : Text) :
    named? name (os ++ [o]) = if o.name = name then some o else named? name os := by
  rw [named?, List.find?_append, ← named?, List.find?_singleton]
  by_cases same : o.name = name
  · subst same
    simp [named?_eq_none fresh]
  · simp [same]

theorem named?_eq_some {name : Text} {os : List GivenOption} {o : GivenOption} (once : (names os).Nodup) :
    named? name os = some o ↔ o ∈ os ∧ o.name = name := by
  constructor
  · intro found
    exact ⟨List.mem_of_find?_eq_some found, by simpa using List.find?_some found⟩
  · rintro ⟨mem, rfl⟩
    have some' : (named? o.name os).isSome = true := by
      rw [isSome_named?, decide_eq_true_iff]
      exact List.mem_map_of_mem mem
    obtain ⟨o', found⟩ := Option.isSome_iff_exists.mp some'
    have same : o'.name = o.name := by simpa using List.find?_some found
    rw [found, List.inj_on_of_nodup_map once (List.mem_of_find?_eq_some found) mem same]

/-- Options with different names are found whatever their order. -/
theorem named?_perm {os os' : List GivenOption} (h : os.Perm os') (once : (names os).Nodup) (name : Text) :
    named? name os = named? name os' := by
  have once' : (names os').Nodup := (h.map _).nodup_iff.mp once
  apply Option.ext
  intro o
  rw [named?_eq_some once, named?_eq_some once', h.mem_iff]

end GivenOption

open GivenOption

namespace ExtractOptions

/-- What has been found after the options. -/
def Found.ofGiven (os : List GivenOption) : Found where
  leading := (named? "prefix" os).map fun o => o.affix.getD []
  trailing := (named? "suffix" os).map fun o => o.affix.getD []
  noImpl := (named? "no_impl" os).isSome

/-- What the options come to. -/
def ofGiven (os : List GivenOption) : ExtractOptions :=
  let found := Found.ofGiven os
  ⟨found.leading.getD [], found.trailing.getD [], found.noImpl⟩

/-- The order of options plays no role. -/
theorem ofGiven_perm {os os' : List GivenOption} (h : os.Perm os') (once : (names os).Nodup) :
    ofGiven os = ofGiven os' := by
  unfold ofGiven Found.ofGiven
  simp only [named?_perm h once]

/-- What has been found after one more option. -/
def Found.take (found : Found) : GivenOption → Found
  | .leading n => { found with leading := some n }
  | .trailing n => { found with trailing := some n }
  | .noImpl => { found with noImpl := true }

theorem names_ne :
    ("prefix" : Text) ≠ "suffix" ∧ ("prefix" : Text) ≠ "no_impl" ∧ ("suffix" : Text) ≠ "no_impl" := by
  decide

theorem Found.ofGiven_snoc {os : List GivenOption} {o : GivenOption} (fresh : o.name ∉ names os) :
    Found.ofGiven (os ++ [o]) = (Found.ofGiven os).take o := by
  obtain ⟨ps, pn, sn⟩ := names_ne
  have found := named?_snoc fresh
  unfold Found.ofGiven
  rw [found, found, found]
  cases o with
  | leading n =>
      rw [name_leading, if_pos rfl, if_neg ps, if_neg pn]
      rfl
  | trailing n =>
      rw [name_trailing, if_neg ps.symm, if_pos rfl, if_neg sn]
      rfl
  | noImpl =>
      rw [name_noImpl, if_neg pn.symm, if_neg sn.symm, if_pos rfl]
      rfl

/-- **One more option is taken, or it is a duplicate.** -/
theorem Found.add_given {os : List GivenOption} {o : GivenOption} {w : WrittenOption} (h : o.IsWrittenAs w) :
    (Found.ofGiven os).add w
      = if o.name ∈ names os then .error ⟨.duplicateOption o.name, w.index, none⟩
        else .ok (Found.ofGiven (os ++ [o])) := by
  obtain ⟨named, value⟩ := h
  obtain ⟨ps, pn, sn⟩ := names_ne
  have seen := isSome_named? o.name os
  unfold Found.add
  rw [named]
  by_cases repeated : o.name ∈ names os
  · rw [if_pos repeated]
    rw [decide_eq_true repeated] at seen
    cases o with
    | leading n =>
        have found : (Found.ofGiven os).leading.isSome = true := Option.isSome_map.trans seen
        rw [name_leading, if_pos rfl, found]
        rfl
    | trailing n =>
        have found : (Found.ofGiven os).trailing.isSome = true := Option.isSome_map.trans seen
        rw [name_trailing, if_neg ps.symm, if_pos rfl, found]
        rfl
    | noImpl =>
        have found : (Found.ofGiven os).noImpl = true := seen
        rw [name_noImpl, if_neg pn.symm, if_neg sn.symm, if_pos rfl, found]
        rfl
  · rw [if_neg repeated, Found.ofGiven_snoc repeated]
    rw [decide_eq_false repeated] at seen
    cases o with
    | leading n =>
        have found : (Found.ofGiven os).leading.isSome = false := Option.isSome_map.trans seen
        rw [name_leading, if_pos rfl, found, value.nameValue]
        rfl
    | trailing n =>
        have found : (Found.ofGiven os).trailing.isSome = false := Option.isSome_map.trans seen
        rw [name_trailing, if_neg ps.symm, if_pos rfl, found, value.nameValue]
        rfl
    | noImpl =>
        have found : (Found.ofGiven os).noImpl = false := seen
        have noValue : w.value.isSome = false := by
          generalize w.value = v at value
          cases value
          rfl
        rw [name_noImpl, if_neg pn.symm, if_neg sn.symm, if_pos rfl, found, noValue]
        rfl

/-- The options have been collected: they have been found, or one of them has been met twice. -/
structure Collects (os : List GivenOption) (r : Except Fault Found) : Prop where
  once : (names os).Nodup → r = .ok (.ofGiven os)
  twice : ¬ (names os).Nodup → ∃ fault, r = .error fault ∧ fault.cause.code = .duplicateAttribute

theorem Collects.add {os : List GivenOption} {o : GivenOption} {w : WrittenOption} (h : o.IsWrittenAs w)
    (once : (names os).Nodup) : Collects (os ++ [o]) ((Found.ofGiven os).add w) := by
  have all : (names (os ++ [o])).Nodup ↔ o.name ∉ names os := by
    rw [names, List.map_append, List.map_singleton, ← names, List.nodup_append_comm]
    simp [once]
  rw [Found.add_given h]
  constructor
  · intro new
    rw [if_neg (all.mp new)]
  · intro repeated
    rw [if_pos (by_contra fun new => repeated (all.mpr new))]
    exact ⟨_, rfl, rfl⟩

/-- **Options are collected one after the other**, where every step collects those of one entry. -/
theorem Collects.foldlM {α β : Type} {shows : α → β → Prop} (options : α → List GivenOption)
    (step : Found → β → Except Fault Found)
    (each : ∀ {a b os}, shows a b → (names os).Nodup → Collects (os ++ options a) (step (.ofGiven os) b))
    {as : List α} {bs : List β} (h : List.Forall₂ shows as bs) :
    ∀ {os}, (names os).Nodup → Collects (os ++ as.flatMap options) (bs.foldlM step (.ofGiven os)) := by
  induction h with
  | nil =>
      intro os once
      rw [List.flatMap_nil, List.append_nil]
      exact ⟨fun _ => rfl, fun twice => absurd once twice⟩
  | @cons a b as bs here _ ih =>
      intro os once
      have first := each here once
      rw [List.flatMap_cons, ← List.append_assoc, List.foldlM_cons]
      by_cases onward : (names (os ++ options a)).Nodup
      · -- the entry has been taken, and the rest is collected behind it
        rw [first.once onward]
        exact ih onward
      · -- the entry has been refused, and what follows cannot make its names distinct
        obtain ⟨fault, failed, code⟩ := first.twice onward
        rw [failed]
        refine ⟨fun all => absurd ?_ onward, fun _ => ⟨fault, rfl, code⟩⟩
        rw [names, List.map_append] at all
        exact all.of_append_left

theorem Collects.addAll {ws : List WrittenOption} {os gs : List GivenOption} (h : List.Forall₂ IsWrittenAs gs ws)
    (once : (names os).Nodup) : Collects (os ++ gs) (ws.foldlM Found.add (.ofGiven os)) := by
  have all := Collects.foldlM (fun o => [o]) Found.add Collects.add h once
  rwa [List.flatMap_singleton'] at all

end ExtractOptions

/-! ## §4. Attributes that give options. -/

/-- What the marker is applied to: nothing, or a list of options. -/
inductive GivenOption.IsArgs : List GivenOption → Option Text → Prop where
  | bare : IsArgs [] none
  | list {os : List GivenOption} {t : Text} (h : IsList os t) : IsArgs os (some t)

theorem GivenOption.name_cases (o : GivenOption) :
    o.name ≠ EnumDecl.marker ∧ (o.name = "prefix" || o.name = "suffix" || o.name = "no_impl") = true := by
  cases o with
  | leading n => exact ⟨(by decide : ("prefix" : Text) ≠ EnumDecl.marker), rfl⟩
  | trailing n => exact ⟨(by decide : ("suffix" : Text) ≠ EnumDecl.marker), rfl⟩
  | noImpl => exact ⟨(by decide : ("no_impl" : Text) ≠ EnumDecl.marker), rfl⟩

/-- The attribute gives the options: as the marker with its list, as an option itself, or none as any other. -/
inductive Attribute.GivesOptions (attr : Attribute) : List GivenOption → Prop where
  | marker {os : List GivenOption} (path : attr.path = EnumDecl.marker)
      (args : IsArgs os (attr.args.map (·.text))) : GivesOptions attr os
  | standalone {o : GivenOption} (path : attr.path = o.name)
      (args : IsPadded o.affix (attr.args.map (·.text))) : GivesOptions attr [o]
  | other (path : attr.path ∉ EnumDecl.directivePaths) : GivesOptions attr []

/-- **The options that an attribute gives are read off it.** -/
theorem Attribute.GivesOptions.ofAttribute {attr : Attribute} {os : List GivenOption} (h : attr.GivesOptions os) :
    ∃ ws, WrittenOption.ofAttribute attr = .ok ws ∧ List.Forall₂ IsWrittenAs os ws := by
  unfold WrittenOption.ofAttribute
  cases h with
  | marker path args =>
      rw [if_pos path]
      generalize attr.args = given at args
      cases given with
      | none =>
          cases args
          exact ⟨[], rfl, .nil⟩
      | some given =>
          obtain _ | list := args
          exact IsList.read (c := ⟨some '(', given.start, given.text⟩) list
  | @standalone o path args =>
      obtain ⟨noMarker, isOption⟩ := o.name_cases
      rw [← path] at noMarker isOption
      rw [if_neg noMarker, if_pos isOption]
      exact ⟨_, rfl, .cons ⟨path, args⟩ .nil⟩
  | other path =>
      simp only [EnumDecl.directivePaths, List.mem_cons, List.not_mem_nil, or_false, not_or] at path
      obtain ⟨noMarker, noPrefix, noSuffix, noImpl⟩ := path
      rw [if_neg noMarker, decide_eq_false noPrefix, decide_eq_false noSuffix, decide_eq_false noImpl]
      exact ⟨[], rfl, .nil⟩

namespace ExtractOptions

/-- **The options of all attributes are collected**, if there is at most one marker. -/
theorem ofAttributes_gives {given : List (List GivenOption)} {attrs : List Attribute}
    (h : List.Forall₂ (fun os attr => attr.GivesOptions os) given attrs)
    (single : (Attribute.named EnumDecl.marker attrs).length ≤ 1) :
    ((names given.flatten).Nodup → ofAttributes attrs = .ok (ofGiven given.flatten))
      ∧ (¬ (names given.flatten).Nodup →
          ∃ fault, ofAttributes attrs = .error fault ∧ fault.cause.code = .duplicateAttribute) := by
  let step (found : Found) (attr : Attribute) : Except Fault Found := do
    (← WrittenOption.ofAttribute attr).foldlM Found.add found
  have each {os gs : List GivenOption} {attr : Attribute} (gives : attr.GivesOptions os) (once : (names gs).Nodup) :
      Collects (gs ++ os) (step (.ofGiven gs) attr) := by
    obtain ⟨ws, read, written⟩ := gives.ofAttribute
    show Collects _ (WrittenOption.ofAttribute attr >>= _)
    rw [read]
    exact Collects.addAll written once
  have none : (names []).Nodup := List.nodup_nil
  have collected := Collects.foldlM id step each h none
  rw [List.nil_append, List.flatMap_id] at collected
  have noSecond : ofAttributes attrs = (do
      let found ← attrs.foldlM step (Found.ofGiven [])
      return ⟨found.leading.getD [], found.trailing.getD [], found.noImpl⟩) := by
    unfold ofAttributes
    split
    next eq =>
      rw [eq] at single
      simp at single
    next => rfl
  rw [noSecond]
  constructor
  · intro once
    rw [collected.once once]
    rfl
  · intro twice
    obtain ⟨fault, failed, code⟩ := collected.twice twice
    rw [failed]
    exact ⟨fault, rfl, code⟩

end ExtractOptions

/-! ## §5. Attributes as they are written. -/

theorem GivenOption.IsArgs.trees {os : List GivenOption} {args : Option Text} (h : IsArgs os args) :
    ∀ t, args = some t → IsTrees t := by
  rintro t rfl
  obtain _ | list := h
  exact list.trees

theorem GivenOption.IsPadded.trees_args {n args : Option Text} (h : IsPadded n args) :
    ∀ t, args = some t → IsTrees t := by
  rintro t rfl
  exact h.trees

theorem isName_marker : IsName EnumDecl.marker :=
  ⟨'e', _, rfl, rfl, by decide⟩

/-- A remark in front of an enum, with the options that it gives. -/
inductive OptionSource where
  /-- The marker, perhaps with a list of options. -/
  | marker (blanks : AttributeBlanks) (os : List GivenOption) (args : Option Text) (h : IsArgs os args)
  /-- An option as an attribute of its own. -/
  | standalone (blanks : AttributeBlanks) (o : GivenOption) (args : Option Text) (h : IsPadded o.affix args)
  /-- A doc comment, or an attribute that is no directive. -/
  | other (r : Remark) (h : r.path ∉ EnumDecl.directivePaths)

namespace OptionSource

def remark : OptionSource → Remark
  | marker blanks _ args h => .bracketed (.ofSyntax (.ofName blanks EnumDecl.marker isName_marker args h.trees))
  | standalone blanks o args h => .bracketed (.ofSyntax (.ofName blanks o.name o.isName_name args h.trees_args))
  | other r _ => r

def options : OptionSource → List GivenOption
  | marker _ os _ _ => os
  | standalone _ o _ _ => [o]
  | other _ _ => []

def isMarker : OptionSource → Bool
  | marker .. => true
  | _ => false

theorem gives (s : OptionSource) (offset : Nat) : (s.remark.placed offset).GivesOptions s.options := by
  cases s with
  | marker blanks os args h =>
      obtain ⟨path, read⟩ := AttributeSyntax.ofName_placed blanks isName_marker args h.trees offset
      exact .marker path ((congrArg (IsArgs os) read).mpr h)
  | standalone blanks o args h =>
      obtain ⟨path, read⟩ := AttributeSyntax.ofName_placed blanks o.isName_name args h.trees_args offset
      exact .standalone path ((congrArg (IsPadded o.affix) read).mpr h)
  | other r h => exact .other (r.path_placed offset ▸ h)

theorem path_placed (s : OptionSource) (offset : Nat) :
    decide ((s.remark.placed offset).path = EnumDecl.marker) = s.isMarker := by
  rw [Remark.path_placed]
  cases s with
  | marker blanks os args h => exact decide_eq_true (unspaced_name isName_marker)
  | standalone blanks o args h =>
      have path : (standalone blanks o args h).remark.path = o.name := unspaced_name o.isName_name
      rw [path]
      exact decide_eq_false o.name_cases.1
  | other r h =>
      refine decide_eq_false fun path => h ?_
      rw [show r.path = EnumDecl.marker from path]
      exact List.mem_cons_self

variable {tail : Text} {l : Leaf} {ls : List Leaf} {c : Cursor}

/-- What the remarks are read as. -/
theorem exists_attrs {sources : List OptionSource}
    (printed : Printed tail (sources.map (.remark ·.remark) ++ l :: ls) c.ahead) (fresh : c.Fresh)
    (plain : l.isRemark = false) :
    ∃ attrs head, c.readPrelude = .ok (attrs, head)
      ∧ List.Forall₂ (fun s attr => ∃ offset, attr = s.remark.placed offset) sources attrs := by
  have remarks : sources.map (Leaf.remark ·.remark) = (sources.map remark).map Leaf.remark := by
    rw [List.map_map]
    rfl
  rw [remarks] at printed
  obtain ⟨attrs, head, w, prelude, read, _⟩ := Printed.prelude plain printed fresh
  refine ⟨attrs, head, readPrelude_ok_iff.mpr prelude, ?_⟩
  rw [List.forall₂_map_left_iff] at read
  refine read.imp ?_
  rintro s attr ⟨p, v, _, _, eq⟩
  exact ⟨p.offset, eq⟩

end OptionSource

namespace ExtractOptions

/-- **It does not matter where and in which order options are written**: with all names different
they come to the same, and a name that comes twice is refused. -/
theorem sources_outcome {tail : Text} {l : Leaf} {ls : List Leaf} {c : Cursor} {sources : List OptionSource}
    {os : List GivenOption} (printed : Printed tail (sources.map (.remark ·.remark) ++ l :: ls) c.ahead)
    (fresh : c.Fresh) (plain : l.isRemark = false) (single : sources.countP (·.isMarker) ≤ 1)
    (same : os.Perm (sources.flatMap (·.options))) :
    ∃ attrs head, c.readPrelude = .ok (attrs, head)
      ∧ ((names os).Nodup → ofAttributes attrs = .ok (ofGiven os))
      ∧ (¬ (names os).Nodup →
          ∃ fault, ofAttributes attrs = .error fault ∧ fault.cause.code = .duplicateAttribute) := by
  obtain ⟨attrs, head, read, shown⟩ := OptionSource.exists_attrs printed fresh plain
  have gives : List.Forall₂ (fun os attr => attr.GivesOptions os) (sources.map (·.options)) attrs := by
    rw [List.forall₂_map_left_iff]
    refine shown.imp ?_
    rintro s attr ⟨offset, rfl⟩
    exact s.gives offset
  -- one attribute for each marker, so that no second one is refused beforehand
  have markers : (Attribute.named EnumDecl.marker attrs).length ≤ 1 := by
    have count : sources.countP (·.isMarker) = attrs.countP (·.path = EnumDecl.marker) := by
      clear printed single same read gives
      induction shown with
      | nil => rfl
      | cons here _ ih =>
          obtain ⟨offset, rfl⟩ := here
          rw [List.countP_cons, List.countP_cons, ih, OptionSource.path_placed]
    rw [Attribute.named, ← List.countP_eq_length_filter, ← count]
    exact single
  obtain ⟨once, twice⟩ := ofAttributes_gives gives markers
  have nodup : (names os).Nodup ↔ (names (sources.flatMap (·.options))).Nodup := (same.map _).nodup_iff
  refine ⟨attrs, head, read, fun distinct => ?_, fun repeated => twice fun distinct => repeated (nodup.mpr distinct)⟩
  rw [ofGiven_perm same distinct]
  exact once (nodup.mp distinct)

/-- A prefix in the list and another one beside it are a duplicate. -/
example : ((Text.cursor "#[extract_variant(prefix(A))] #[prefix(B)] enum E" 0).readPrelude
      >>= fun read => ofAttributes read.1) = .error ⟨.duplicateOption "prefix", 30, none⟩ := by
  decide +kernel

namespace Sample

theorem isName_my : IsName "My" :=
  ⟨'M', _, rfl, rfl, by decide⟩

theorem isName_s : IsName "S" :=
  ⟨'S', _, rfl, rfl, by decide⟩

theorem isList : IsList [.noImpl, .trailing "S"] "no_impl, suffix(S)" :=
  ⟨[⟨"no_impl", none, 0⟩, ⟨"suffix", some "S", 9⟩],
    .comma (.mk IsGap.nil GivenOption.noImpl.isName_name .absent IsGap.nil)
      (.last (.mk IsGap.space (GivenOption.trailing "S").isName_name (.present IsGap.nil (by decide)) IsGap.nil)),
    .cons ⟨rfl, .absent⟩ (.cons ⟨rfl, .padded IsGap.nil isName_s IsGap.nil⟩ .nil)⟩

/-- A prefix of its own, an attribute that is no directive, and the marker with a list. -/
def sources : List OptionSource :=
  [.standalone .tight (.leading "My") (some " My ") (.padded IsGap.space isName_my IsGap.space),
    .other (.bracketed (.ofSyntax EnumSyntax.Sample.hidden)) (by decide),
    .marker .tight [.noImpl, .trailing "S"] (some "no_impl, suffix(S)") (.list isList)]

def text : Text :=
  "#[prefix( My )]\n#[hidden] #[extract_variant(no_impl, suffix(S))] enum E \x7b A \x7d"

/-- The sources, and the keyword behind them. -/
def leaves : List Leaf :=
  sources.map (.remark ·.remark) ++ [.keyword "enum" (by decide)]

theorem printed : Printed " E \x7b A \x7d" leaves (Text.cursor text 0).ahead := by
  have bracketed (s : AttributeSyntax) {w : Text} : (Remark.bracketed (.ofSyntax s)).Apart w :=
    fun _ => ⟨s, rfl⟩
  have spells : Printed " E \x7b A \x7d" leaves _ :=
    .cons IsGap.nil (bracketed _) (.cons IsGap.feed (bracketed _) (.cons IsGap.space (bracketed _)
      (.cons IsGap.space (.of_first _ (by decide)) (.nil IsGap.nil))))
  obtain ⟨t, spelt, eq⟩ : ∃ t, Printed " E \x7b A \x7d" leaves t ∧ t = text :=
    ⟨_, spells, by decide +kernel⟩
  rwa [eq] at spelt

end Sample

/-- Options in both places are collected. -/
theorem sample_outcome :
    let os : List GivenOption := [.leading "My", .trailing "S", .noImpl]
    Printed " E \x7b A \x7d" Sample.leaves (Text.cursor Sample.text 0).ahead
      ∧ os.Perm (Sample.sources.flatMap (·.options))
      ∧ ∃ attrs head, (Text.cursor Sample.text 0).readPrelude = .ok (attrs, head)
        ∧ ofAttributes attrs = .ok ⟨"My", "S", true⟩ := by
  intro os
  have same : os.Perm (Sample.sources.flatMap (·.options)) := by decide
  obtain ⟨attrs, head, read, once, _⟩ :=
    sources_outcome Sample.printed (fun _ _ _ => rfl) rfl (by decide) same
  exact ⟨Sample.printed, same, attrs, head, read, once (by decide)⟩

end ExtractOptions

end EnumExtract
