/-
  EnumExtract.Proofs.Grammar.BindingTargets
  ────────────────────────────────
  What a `#[variant_of(…)]` names, as it is written.

      target    a path, perhaps a comma and a variant, perhaps a comma
      path      identifiers with `::` between them, perhaps one in front

  A declaration may have a raw identifier for its name, and so may the modules
  around it and its variants.  The reader of targets knows plain names only: a
  target is read as it is written if its names are plain, and refused
  if one of them is raw.

  Main results:
    • `IsWritten.ofList?`        what the reader of targets makes of a written one,
    • `Forest.items_bind`        what it makes of the attributes of a declaration
                                 in a written forest,
    • `rawTarget_refused`       a variant that no target can name.
-/
import EnumExtract.Proofs.Grammar.Forests
import EnumExtract.Schema.BindingTarget

namespace EnumExtract

open Cursor

/-! ## §1. Written targets. -/

/-- The path of an enum, and perhaps one of its variants. -/
structure TargetName where
  /-- The path begins with `::`. -/
  rooted : Bool
  first : Text
  more : List Text
  variant : Option Text

namespace TargetName

/-- What stands in front of the path without blanks. -/
def root (rooted : Bool) : Text :=
  if rooted then "::" else []

/-- The path without blanks. -/
def path (target : TargetName) : Text :=
  root target.rooted ++ (target.first ++ target.more.flatMap fun n => ("::" : Text) ++ n)

/-- All the names that the target is made of. -/
def names (target : TargetName) : List Text :=
  target.first :: (target.more ++ target.variant.toList)

/-- One of the names is raw. -/
def isRaw (target : TargetName) : Bool :=
  target.names.any (Text.startsWith · "r#")

/-- What may stand in front of a path. -/
inductive IsRoot : Bool → Text → Prop where
  | bare : IsRoot false []
  | rooted {b : Text} (blank : IsGap b) : IsRoot true ("::" ++ b)

/-- The names behind the first one, each behind `::`. -/
inductive IsSegments : List Text → Text → Prop where
  | nil : IsSegments [] []
  | cons {b b' n w : Text} {ns : List Text} (before : IsGap b) (after : IsGap b') (h : IsIdentifier n)
      (rest : IsSegments ns w) : IsSegments (n :: ns) (b ++ "::" ++ b' ++ n ++ w)

/-- The variant behind its comma. -/
inductive IsVariant : Option Text → Text → Prop where
  | absent : IsVariant none []
  | present {b n b' : Text} (before : IsGap b) (h : IsIdentifier n) (behind : IsGap b') :
      IsVariant (some n) (',' :: (b ++ (n ++ b')))

/-- The comma behind all. -/
inductive IsLast : Text → Prop where
  | absent : IsLast []
  | present {b : Text} (blank : IsGap b) : IsLast (',' :: b)

/-- The text writes the target, with blanks between its parts. -/
inductive IsWritten : TargetName → Text → Prop where
  | mk {rooted : Bool} {n : Text} {ns : List Text} {variant : Option Text} {b r w b' v l : Text} (before : IsGap b)
      (root : IsRoot rooted r) (first : IsIdentifier n) (more : IsSegments ns w) (behind : IsGap b')
      (own : IsVariant variant v) (last : IsLast l) :
      IsWritten ⟨rooted, n, ns, variant⟩ (b ++ (r ++ (n ++ w ++ (b' ++ (v ++ l)))))

/-! ## §2. A written target is made of trees. -/

/-- An identifier is made of trees, also a raw one. -/
theorem trees_identifier {n w : Text} (h : IsIdentifier n) (sealed : w.Sealed) (rest : IsTrees w) :
    IsTrees (n ++ w) := by
  rcases h with h | ⟨n, h, rfl⟩
  · exact h.trees sealed rest
  · -- the `r` is a word of its own, and what stands behind its hash opens no raw string
    have noRaw (hashes : Nat) (v : Text) : '#' :: (n ++ w) ≠ List.replicate hashes '#' ++ '"' :: v := by
      intro eq
      obtain ⟨ch, u, rfl, start, _⟩ := h
      match hashes with
      | 0 => cases (List.cons.inj eq).1
      | 1 =>
          rw [(List.cons.inj (List.cons.inj eq).2).1] at start
          cases start
      | k + 2 =>
          rw [(List.cons.inj (List.cons.inj eq).2).1] at start
          cases start
    have tail : IsTrees ('#' :: (n ++ w)) := .mark rfl (h.trees sealed rest)
    exact .word (u := ['r']) (List.cons_ne_nil _ _) (List.forall_mem_singleton.mpr rfl) (by rintro _ ⟨⟩; rfl)
      (fun _ => noRaw) tail

theorem IsSegments.trees {ns : List Text} {w t : Text} (h : IsSegments ns w) (sealed : t.Sealed)
    (rest : IsTrees t) : IsTrees (w ++ t) ∧ Text.Sealed (w ++ t) := by
  induction h with
  | nil => exact ⟨rest, sealed⟩
  | @cons b b' n w ns before after h _ ih =>
      have colons : Text.Sealed (':' :: ':' :: (b' ++ (n ++ (w ++ t)))) := by
        rintro _ ⟨⟩
        decide
      have eq : b ++ "::" ++ b' ++ n ++ w ++ t = b ++ (':' :: ':' :: (b' ++ (n ++ (w ++ t)))) := by simp
      rw [eq]
      exact ⟨.gap before (.mark rfl (.mark rfl (.gap after (trees_identifier h ih.2 ih.1)))), before.sealed colons⟩

theorem IsLast.trees {l : Text} (h : IsLast l) : IsTrees l ∧ Text.Sealed l := by
  cases h with
  | absent => exact ⟨.nil, nofun⟩
  | present blank => exact ⟨.mark rfl blank.trees, sealed_comma⟩

theorem IsVariant.trees {variant : Option Text} {v l : Text} (h : IsVariant variant v) (last : IsLast l) :
    IsTrees (v ++ l) ∧ Text.Sealed (v ++ l) := by
  cases h with
  | absent => exact last.trees
  | @present b n b' before h behind =>
      have tail : IsTrees (b' ++ l) := .gap behind last.trees.1
      have own := trees_identifier h (behind.sealed last.trees.2) tail
      have eq : ',' :: (b ++ (n ++ b')) ++ l = ',' :: (b ++ (n ++ (b' ++ l))) := by simp
      rw [eq]
      exact ⟨.mark rfl (.gap before own), sealed_comma⟩

theorem IsWritten.trees {target : TargetName} {t : Text} (h : target.IsWritten t) : IsTrees t := by
  obtain @⟨rooted, n, ns, variant, b, r, w, b', v, l, before, root, first, more, behind, own, last⟩ := h
  have tail := own.trees last
  have path := more.trees (behind.sealed tail.2) (.gap behind tail.1)
  have named : IsTrees (n ++ (w ++ (b' ++ (v ++ l)))) := trees_identifier first path.2 path.1
  rw [List.append_assoc n w]
  refine .gap before ?_
  cases root with
  | bare => exact named
  | rooted blank => exact .mark rfl (.mark rfl (.gap blank named))

/-! ## §3. Plain names. -/

theorem noHash_of_isName {n : Text} (h : IsName n) : '#' ∉ n := by
  intro mem
  have word := h.isWord _ mem
  cases word

/-- An identifier that is not raw is a name. -/
theorem isName_of_not_raw {n : Text} (h : IsIdentifier n) (plain : Text.startsWith n "r#" = false) : IsName n := by
  rcases h with h | ⟨n, _, rfl⟩
  · exact h
  · cases plain

theorem IsSegments.plain {ns : List Text} {w : Text} (h : IsSegments ns w)
    (plain : ∀ n ∈ ns, Text.startsWith n "r#" = false) : IsPathTail w := by
  induction h with
  | nil => exact .nil
  | cons before after h _ ih =>
      exact .segment before after (isName_of_not_raw h (plain _ List.mem_cons_self))
        (ih fun n mem => plain n (List.mem_cons_of_mem _ mem))

theorem IsSegments.unspaced {ns : List Text} {w : Text} (h : IsSegments ns w)
    (plain : ∀ n ∈ ns, Text.startsWith n "r#" = false) : Text.unspaced w = ns.flatMap fun n => ("::" : Text) ++ n := by
  induction h with
  | nil => rfl
  | @cons b b' n w ns before after h _ ih =>
      have isName := isName_of_not_raw h (plain _ List.mem_cons_self)
      have colons : Text.unspaced "::" = "::" := by decide
      rw [Text.unspaced_append, Text.unspaced_append, Text.unspaced_append, Text.unspaced_append, before.unspaced, after.unspaced,
        unspaced_name isName, ih fun n mem => plain n (List.mem_cons_of_mem _ mem), List.flatMap_cons,
        List.nil_append, List.append_nil, colons]

/-- What the comma behind all leaves, when it is cut off. -/
theorem IsLast.blank {l : Text} (h : IsLast l) :
    Text.isBlank (if Text.startsWith l "," then l.drop 1 else l) = true ∧ l.trimStart = l := by
  cases h with
  | absent => exact ⟨rfl, rfl⟩
  | present blank => exact ⟨List.all_eq_true.mpr blank, rfl⟩

theorem IsVariant.read {variant : Option Text} {b' v l : Text} (h : IsVariant variant v) (behind : IsGap b')
    (last : IsLast l) (plain : ∀ n ∈ variant, Text.startsWith n "r#" = false) :
    BindingTarget.variant? (b' ++ (v ++ l)) = some variant := by
  obtain ⟨atEnd, tight⟩ := last.blank
  have trim {b w : Text} (blank : IsGap b) : Text.trimStart (b ++ w) = w.trimStart :=
    List.dropWhile_append_of_pos blank
  have toName {b w : Text} (blank : IsGap b) (plain : ∀ ch, w.head? = some ch → isBlank ch = false) :
      (b ++ w).dropWhile isBlank = w := by
    rw [List.dropWhile_append_of_pos blank]
    cases w with
    | nil => rfl
    | cons ch w => rw [List.dropWhile_cons_of_neg (by rw [plain ch rfl]; decide)]
  unfold BindingTarget.variant?
  rw [trim behind]
  cases h with
  | absent =>
      cases last with
      | absent => rfl
      | @present b blank =>
          have rest := toName blank (w := []) nofun
          rw [List.append_nil] at rest
          have comma : Text.trimStart ([] ++ ',' :: b) = ',' :: b := rfl
          simp only [comma, rest]
          rfl
  | @present b n b'' before h behind =>
      have isName := isName_of_not_raw h (plain n rfl)
      have rest : (b ++ (n ++ (b'' ++ l))).dropWhile isBlank = n ++ (b'' ++ l) := toName before isName.notBlank
      have sealed : Text.Sealed (b'' ++ l) := behind.sealed last.trees.2
      have length : Text.nameLength (n ++ (b'' ++ l)) = n.length :=
        Text.nameLength_append isName fun ch first => (sealed ch first).1
      have pos := List.length_pos_of_ne_nil isName.ne_nil
      have found : Text.name? (n ++ (b'' ++ l)) = some n := by
        rw [Text.name?, length, if_neg (by omega), List.take_left]
      have comma : Text.trimStart (',' :: (b ++ (n ++ b'')) ++ l) = ',' :: (b ++ (n ++ (b'' ++ l))) := by
        show ',' :: (b ++ (n ++ b'') ++ l) = _
        simp
      simp only [comma, rest, found, List.drop_left, trim behind, tight, atEnd, if_true]

theorem IsRoot.read {rooted : Bool} {r w : Text} (h : IsRoot rooted r)
    (start : ∃ ch v, w = ch :: v ∧ isNameStart ch = true) :
    (if Text.startsWith (r ++ w) "::" then 2 + Text.blanks ((r ++ w).drop 2) else 0) = r.length := by
  obtain ⟨ch, v, rfl, start⟩ := start
  have plain : isBlank ch = false := not_isBlank_of_isWord (isWord_of_isNameStart start)
  cases h with
  | bare =>
      rw [if_neg]
      · rfl
      · intro colons
        obtain ⟨rest, eq⟩ := List.isPrefixOf_iff_prefix.mp colons
        rw [← (List.cons.inj eq).1] at start
        cases start
  | @rooted b blank =>
      have colons : Text.startsWith ("::" ++ b ++ ch :: v) "::" = true := rfl
      have behind : ("::" ++ b ++ ch :: v : Text).drop 2 = b ++ ch :: v := rfl
      rw [if_pos colons, behind, blanks_append blank (by rintro _ ⟨⟩; exact plain), List.length_append]
      rfl

theorem IsRoot.unspaced {rooted : Bool} {r : Text} (h : IsRoot rooted r) : Text.unspaced r = root rooted := by
  cases h with
  | bare => rfl
  | rooted blank =>
      rw [Text.unspaced_append, blank.unspaced]
      decide

/-- Behind a path, no further segment stands. -/
theorem segmentLength?_behind {b' v l : Text} {variant : Option Text} (behind : IsGap b') (own : IsVariant variant v)
    (last : IsLast l) : Text.segmentLength? (b' ++ (v ++ l)) = none := by
  have comma : ∀ ch, (v ++ l).head? = some ch → ch = ',' := by
    cases own with
    | present => rintro _ ⟨⟩; rfl
    | absent =>
        cases last with
        | present => rintro _ ⟨⟩; rfl
        | absent => exact nofun
  have blanks := blanks_append behind fun ch first => by rw [comma ch first]; rfl
  unfold Text.segmentLength?
  simp only [blanks, List.drop_left]
  rw [if_neg]
  intro colons
  obtain ⟨rest, eq⟩ := List.isPrefixOf_iff_prefix.mp colons
  have first := comma ':' (by rw [← eq]; rfl)
  cases first

/-- **A target of plain names is read as it is written.** -/
theorem IsWritten.read {target : TargetName} {t : Text} (h : target.IsWritten t) (plain : target.isRaw = false) :
    BindingTarget.ofList? t = some (target.path, target.variant) := by
  have each : ∀ n ∈ target.names, Text.startsWith n "r#" = false := by
    intro n mem
    simpa using List.any_eq_false.mp plain n mem
  obtain @⟨rooted, n, ns, variant, b, r, w, b', v, l, before, root, first, more, behind, own, last⟩ := h
  have isName : IsName n := isName_of_not_raw first (each n List.mem_cons_self)
  have plainMore : ∀ n ∈ ns, Text.startsWith n "r#" = false := fun n mem =>
    each n (List.mem_cons_of_mem _ (List.mem_append_left _ mem))
  have plainOwn : ∀ n ∈ variant, Text.startsWith n "r#" = false := fun n mem =>
    each n (List.mem_cons_of_mem _ (List.mem_append_right _ (Option.mem_toList.mpr mem)))
  have isPath : IsWrittenPath (n ++ w) := .mk isName (more.plain plainMore)
  have start : ∃ ch u, n ++ w ++ (b' ++ (v ++ l)) = ch :: u ∧ isNameStart ch = true := by
    obtain ⟨ch, u, eq, start⟩ := isPath.exists_first
    exact ⟨ch, u ++ _, by rw [eq]; rfl, start⟩
  have trimmed : Text.trimStart (b ++ (r ++ (n ++ w ++ (b' ++ (v ++ l))))) = r ++ (n ++ w ++ (b' ++ (v ++ l))) := by
    rw [Text.trimStart, List.dropWhile_append_of_pos before]
    cases root with
    | bare =>
        obtain ⟨ch, u, eq, start⟩ := start
        rw [eq, List.nil_append, List.dropWhile_cons_of_neg]
        rw [not_isBlank_of_isWord (isWord_of_isNameStart start)]
        decide
    | rooted => rfl
  -- the root and the path are measured one after the other
  have rootLength := root.read start
  have sealed : Text.Sealed (b' ++ (v ++ l)) := behind.sealed (own.trees last).2
  have pathLength := pathLength_written isPath sealed (segmentLength?_behind behind own last)
  have pos : (n ++ w).length ≠ 0 := by
    rw [List.length_append]
    have pos := List.length_pos_of_ne_nil isName.ne_nil
    omega
  have cut : r ++ (n ++ w ++ (b' ++ (v ++ l))) = (r ++ (n ++ w)) ++ (b' ++ (v ++ l)) :=
    (List.append_assoc _ _ _).symm
  have length : r.length + (n ++ w).length = (r ++ (n ++ w)).length := List.length_append.symm
  have shown : Text.unspaced (r ++ (n ++ w)) = path ⟨rooted, n, ns, variant⟩ := by
    rw [Text.unspaced_append, Text.unspaced_append, root.unspaced, unspaced_name isName, more.unspaced plainMore]
    rfl
  unfold BindingTarget.ofList?
  dsimp only
  rw [trimmed, rootLength, List.drop_left, pathLength, if_neg pos, length, cut, List.drop_left, List.take_left,
    own.read behind last plainOwn, shown]
  rfl

/-! ## §4. Raw names. -/

theorem mem_trimStart {ch : Char} {t : Text} (mem : ch ∈ t) (plain : isBlank ch = false) : ch ∈ t.trimStart := by
  rw [← List.takeWhile_append_dropWhile (p := isBlank) (l := t)] at mem
  rcases List.mem_append.mp mem with mem | mem
  · have blank := List.all_eq_true.mp List.all_takeWhile ch mem
    rw [plain] at blank
    cases blank
  · exact mem

theorem mem_drop {ch : Char} {t : Text} {n : Nat} (mem : ch ∈ t) (other : ch ∉ t.take n) : ch ∈ t.drop n := by
  rw [← List.take_append_drop n t] at mem
  exact (List.mem_append.mp mem).resolve_left other

theorem noHash_root (t : Text) :
    '#' ∉ t.take (if Text.startsWith t "::" then 2 + Text.blanks (t.drop 2) else 0) := by
  intro mem
  split at mem
  next colons =>
    obtain ⟨u, rfl⟩ := List.isPrefixOf_iff_prefix.mp colons
    have behind : ("::" ++ u : Text).drop 2 = u := rfl
    have front (k : Nat) : ("::" ++ u : Text).take (2 + k) = "::" ++ u.take k := by
      rw [Nat.add_comm]
      rfl
    have run : u.take (Text.blanks u) = u.takeWhile isBlank :=
      (List.prefix_iff_eq_take.mp (List.takeWhile_prefix isBlank)).symm
    rw [behind, front, run] at mem
    rcases List.mem_append.mp mem with mem | mem
    · exact absurd mem (by decide)
    · have blank := List.all_eq_true.mp List.all_takeWhile _ mem
      cases blank
  next => cases mem

theorem noHash_path (t : Text) : '#' ∉ t.take (Text.pathLength t) := by
  intro mem
  have inside := (pathLength_spec t).2 _ mem
  cases inside

theorem noHash_name {t n : Text} (h : Text.name? t = some n) : '#' ∉ t.take n.length := by
  intro mem
  rcases Text.nameLength_cases t with ⟨none, _⟩ | ⟨n', rest, rfl, isName, length, _⟩
  · rw [Text.name?, if_pos none] at h
    cases h
  · have pos := List.length_pos_of_ne_nil isName.ne_nil
    rw [Text.name?, ← length, if_neg (by omega), List.take_left] at h
    obtain rfl := Option.some.inj h
    rw [List.take_left] at mem
    exact noHash_of_isName isName mem

/-- Behind a path with a hash somewhere after it, no variant is read. -/
theorem variant?_hash {t : Text} (mem : '#' ∈ t) : BindingTarget.variant? t = none := by
  have trimmed := mem_trimStart mem rfl
  unfold BindingTarget.variant?
  split
  next eq =>
    rw [eq] at trimmed
    cases trimmed
  next rest eq =>
    rw [eq] at trimmed
    have behind : '#' ∈ rest.dropWhile isBlank := mem_trimStart ((List.mem_cons.mp trimmed).resolve_left (by decide)) rfl
    dsimp only
    split
    next =>
      rw [if_neg]
      intro empty
      rw [List.isEmpty_iff.mp empty] at behind
      cases behind
    next n found =>
      have last := mem_trimStart (mem_drop behind (noHash_name found)) rfl
      rw [if_neg]
      intro blank
      have hash : '#' ∈ (if Text.startsWith (Text.trimStart ((rest.dropWhile isBlank).drop n.length)) "," then
          (Text.trimStart ((rest.dropWhile isBlank).drop n.length)).drop 1
          else Text.trimStart ((rest.dropWhile isBlank).drop n.length)) := by
        split
        next comma =>
          obtain ⟨w, eq⟩ := List.isPrefixOf_iff_prefix.mp comma
          rw [← eq] at last ⊢
          exact (List.mem_cons.mp last).resolve_left (by decide)
        next => exact last
      have isBlank := List.all_eq_true.mp blank _ hash
      cases isBlank
  next => rfl

/-- **A list with a hash in it names nothing.** -/
theorem ofList?_hash {t : Text} (mem : '#' ∈ t) : BindingTarget.ofList? t = none := by
  have trimmed := mem_trimStart mem rfl
  unfold BindingTarget.ofList?
  dsimp only
  -- the hash lies neither in the root nor in the path, and no variant is read in front of it
  have behindRoot := mem_drop trimmed (noHash_root _)
  have behindPath := mem_drop behindRoot (noHash_path _)
  rw [List.drop_drop] at behindPath
  generalize (if t.trimStart.startsWith "::" then 2 + Text.blanks (t.trimStart.drop 2) else 0) = root at behindPath ⊢
  rw [variant?_hash behindPath]
  by_cases none : Text.pathLength (t.trimStart.drop root) = 0
  · rw [if_pos none]
    rfl
  · rw [if_neg none]
    rfl

theorem IsSegments.hash {ns : List Text} {w n : Text} (h : IsSegments ns w) (mem : n ∈ ns) (hash : '#' ∈ n) :
    '#' ∈ w := by
  induction h with
  | nil => cases mem
  | cons _ _ _ _ ih =>
      rcases List.mem_cons.mp mem with rfl | mem
      · exact List.mem_append_left _ (List.mem_append_right _ hash)
      · exact List.mem_append_right _ (ih mem)

/-- A raw name leaves its hash in the text. -/
theorem IsWritten.hash {target : TargetName} {t : Text} (h : target.IsWritten t) (raw : target.isRaw = true) :
    '#' ∈ t := by
  obtain ⟨n, mem, starts⟩ := List.any_eq_true.mp raw
  have hash : '#' ∈ n := by
    obtain ⟨rest, rfl⟩ := List.isPrefixOf_iff_prefix.mp starts
    exact List.mem_append_left _ (by decide)
  obtain @⟨rooted, first, ns, variant, b, r, w, b', v, l, before, root, _, more, behind, own, last⟩ := h
  refine List.mem_append_right _ (List.mem_append_right _ ?_)
  rcases List.mem_cons.mp mem with rfl | mem
  · exact List.mem_append_left _ (List.mem_append_left _ hash)
  · rcases List.mem_append.mp mem with mem | mem
    · exact List.mem_append_left _ (List.mem_append_right _ (more.hash mem hash))
    · obtain rfl := Option.mem_toList.mp mem
      cases own with
      | present => simp [hash]

/-- **What the reader of targets makes of a written one.** -/
theorem IsWritten.ofList? {target : TargetName} {t : Text} (h : target.IsWritten t) :
    BindingTarget.ofList? t = if target.isRaw then none else some (target.path, target.variant) := by
  cases raw : target.isRaw with
  | false => exact h.read raw
  | true => exact ofList?_hash (h.hash raw)

end TargetName

/-! ## §5. Targets of declarations. -/

theorem isName_directive : IsName StructDecl.directive :=
  ⟨'v', _, rfl, rfl, by decide⟩

/-- The attribute with the list. -/
def TargetName.IsWritten.remark {target : TargetName} {list : Text} (h : target.IsWritten list)
    (blanks : AttributeBlanks) : Remark :=
  .bracketed (.ofSyntax (.ofName blanks StructDecl.directive isName_directive (some list)
    fun _ same => Option.some.inj same ▸ h.trees))

theorem TargetName.IsWritten.remark_placed {target : TargetName} {list : Text} (h : target.IsWritten list)
    (blanks : AttributeBlanks) (offset : Nat) : ((h.remark blanks).placed offset).args.map (·.text) = some list :=
  (AttributeSyntax.ofName_placed blanks isName_directive (some list) _ offset).2

/-- Exactly one of the remarks in front of the declaration is a `variant_of`, and it names the target. -/
inductive Declaration.Binds (d : Declaration) (target : TargetName) : Prop where
  | mk {before behind : List Remark} {list : Text} (blanks : AttributeBlanks) (written : target.IsWritten list)
      (remarks : d.head.remarks = before ++ written.remark blanks :: behind)
      (single : ∀ r ∈ before ++ behind, r.path ≠ StructDecl.directive) : Binds d target

namespace BindingTarget

variable {c : Cursor} {attrs : List Attribute}

/-- Attributes that are no `variant_of` bind nothing. -/
theorem named_eq_nil {rs : List Remark} (h : List.Forall₂ (Remark.ReadAs c) rs attrs)
    (other : ∀ r ∈ rs, r.path ≠ StructDecl.directive) : Attribute.named StructDecl.directive attrs = [] := by
  rw [Attribute.named, List.filter_eq_nil_iff]
  intro attr mem
  induction h with
  | nil => cases mem
  | cons here _ ih =>
      rcases List.mem_cons.mp mem with rfl | mem
      · obtain ⟨p, w, _, _, rfl⟩ := here
        rw [decide_eq_true_iff, Remark.path_placed]
        exact other _ List.mem_cons_self
      · exact ih (fun r mem => other r (List.mem_cons_of_mem _ mem)) mem

/-- The only `variant_of` among remarks is the one that is found. -/
theorem exists_named {before behind : List Remark} {r : Remark} (own : r.path = StructDecl.directive)
    (h : List.Forall₂ (Remark.ReadAs c) (before ++ r :: behind) attrs)
    (single : ∀ r ∈ before ++ behind, r.path ≠ StructDecl.directive) :
    ∃ attr ∈ attrs, r.ReadAs c attr ∧ Attribute.named StructDecl.directive attrs = [attr] := by
  induction before generalizing attrs with
  | nil =>
      obtain _ | @⟨_, attr, _, attrs, here, rest⟩ := h
      have path : attr.path = StructDecl.directive := by
        obtain ⟨p, w, _, _, rfl⟩ := here
        rw [Remark.path_placed, own]
      refine ⟨attr, List.mem_cons_self, here, ?_⟩
      have none : attrs.filter (·.path = StructDecl.directive) = [] := named_eq_nil rest single
      rw [Attribute.named, List.filter_cons_of_pos (by rwa [decide_eq_true_iff]), none]
  | cons x before ih =>
      obtain _ | @⟨_, attr, _, attrs, here, rest⟩ := h
      have path : attr.path ≠ StructDecl.directive := by
        obtain ⟨p, w, _, _, rfl⟩ := here
        rw [Remark.path_placed]
        exact single x List.mem_cons_self
      obtain ⟨found, mem, read, only⟩ := ih rest fun r mem => single r (List.mem_cons_of_mem _ mem)
      refine ⟨found, List.mem_cons_of_mem _ mem, read, ?_⟩
      rw [Attribute.named, List.filter_cons_of_neg (by rwa [decide_eq_true_iff])]
      exact only

/-- What the attributes of a declaration bind it to. -/
theorem ofAttributes?_binds {d : Declaration} {target : TargetName} (h : d.Binds target)
    (read : List.Forall₂ (Remark.ReadAs c) d.head.remarks attrs) :
    ∃ attr ∈ attrs, ofAttributes? attrs = if target.isRaw then .error ⟨.malformedVariantOf, attr.start, none⟩
      else .ok (some ⟨target.path, target.variant, attr⟩) := by
  obtain @⟨before, behind, list, blanks, written, remarks, single⟩ := h
  rw [remarks] at read
  have own : (written.remark blanks).path = StructDecl.directive := unspaced_name isName_directive
  obtain ⟨attr, mem, ⟨p, w, _, _, placed⟩, only⟩ := exists_named own read single
  have args := written.remark_placed blanks p.offset
  rw [← placed] at args
  obtain ⟨given, listed, rfl⟩ := Option.map_eq_some_iff.mp args
  refine ⟨attr, mem, ?_⟩
  unfold ofAttributes?
  rw [only]
  simp only [listed, Option.bind_some, written.ofList?]
  cases target.isRaw <;> rfl

end BindingTarget

/-- **The declarations of a written forest are bound to what their `variant_of` names**, as long as
none of the names is raw. -/
theorem Forest.items_bind (f : Forest) {t : Text} (h : f.WrittenAs t) :
    ∃ items, t.items = .ok items ∧ List.Forall₂ (fun x item => x.2.FoundAs (t.cursor 0) x.1 item
      ∧ ∀ target, x.2.Binds target → ∃ attr ∈ item.attrs,
        BindingTarget.ofAttributes? item.attrs = if target.isRaw then .error ⟨.malformedVariantOf, attr.start, none⟩
          else .ok (some ⟨target.path, target.variant, attr⟩)) (f.declarations []) items := by
  obtain ⟨items, scanned, found⟩ := f.items_of_writtenAs h
  refine ⟨items, scanned, found.imp ?_⟩
  intro x item here
  exact ⟨here, fun target binds => BindingTarget.ofAttributes?_binds binds here.attrs⟩

namespace TargetName.Sample

def target : TargetName :=
  ⟨true, "geometry", ["Shape"], some "Dot"⟩

theorem written : target.IsWritten " :: geometry::Shape , Dot ," :=
  .mk IsGap.space (.rooted IsGap.space) (.inl ⟨'g', _, rfl, rfl, by decide⟩)
    (.cons IsGap.nil IsGap.nil (.inl ⟨'S', _, rfl, rfl, by decide⟩) .nil) IsGap.space
    (.present IsGap.space (.inl ⟨'D', _, rfl, rfl, by decide⟩) IsGap.space) (.present IsGap.nil)

/-- A struct that is bound to the target. -/
def declaration : Declaration :=
  ⟨⟨[written.remark .tight], .inherited⟩, .struct, EnumSyntax.Sample.dot, Forest.tupleBody⟩

def text : Text :=
  "#[variant_of( :: geometry::Shape , Dot ,)] struct Dot(u8);"

theorem writtenAs : (Forest.declaration declaration .nil).WrittenAs text := by
  have spells : Printed [] (Forest.declaration declaration .nil).leaves _ :=
    .cons IsGap.nil (fun _ => ⟨_, rfl⟩) (.cons IsGap.space (.of_first _ (by decide))
    (.cons IsGap.space (.of_first _ (by decide)) (.cons IsGap.nil (Leaf.apart_symbol _ (by decide) _)
    (.cons IsGap.nil (.of_first _ (by decide)) (.cons IsGap.nil (Leaf.apart_symbol _ (by decide) _)
    (.cons IsGap.nil (Leaf.apart_symbol _ (by decide) _) (.nil IsGap.nil)))))))
  obtain ⟨t, printed, eq⟩ : ∃ t, (Forest.declaration declaration .nil).WrittenAs t ∧ t = text :=
    ⟨_, spells, by decide +kernel⟩
  rwa [eq] at printed

theorem binds : declaration.Binds target := by
  have remarks : declaration.head.remarks = [] ++ written.remark .tight :: [] := rfl
  exact .mk .tight written remarks nofun

/-- A path from the root and a variant are found between their blanks. -/
theorem geometryShape_bound :
    (Forest.declaration declaration .nil).WrittenAs text ∧ declaration.Binds target
      ∧ ∃ item, text.items = .ok [item] ∧ item.name = "Dot" ∧ ∃ attr ∈ item.attrs,
        BindingTarget.ofAttributes? item.attrs = .ok (some ⟨"::geometry::Shape", some "Dot", attr⟩) := by
  obtain ⟨items, scanned, found⟩ := Forest.items_bind _ writtenAs
  obtain _ | ⟨⟨here, bound⟩, _ | _⟩ := found
  obtain ⟨attr, mem, read⟩ := bound target binds
  exact ⟨writtenAs, binds, _, scanned, here.name, attr, mem, read⟩

end TargetName.Sample

/-- A struct that should be bound to a variant with a raw name. -/
def rawTarget : Text :=
  "#[variant_of(E, r#type)] struct S;"

/-- **A variant with a raw name cannot be named**, although an enum may declare it. -/
theorem rawTarget_refused :
    TargetName.IsWritten ⟨false, "E", [], some "r#type"⟩ "E, r#type"
      ∧ ∃ item, rawTarget.items = .ok [item]
        ∧ item.attrs.map (fun attr => attr.args.map (·.text)) = [some ("E, r#type" : Text)]
        ∧ BindingTarget.ofAttributes? item.attrs = .error ⟨.malformedVariantOf, 0, none⟩ := by
  have written : TargetName.IsWritten ⟨false, "E", [], some "r#type"⟩ "E, r#type" :=
    .mk IsGap.nil .bare (.inl ⟨'E', _, rfl, rfl, by decide⟩) .nil IsGap.nil
      (.present IsGap.space (.inr ⟨"type", ⟨'t', _, rfl, rfl, by decide⟩, rfl⟩) IsGap.nil) .absent
  obtain ⟨items, scanned, one⟩ := exists_ok_of_decide (x := rawTarget.items)
    (p := fun items => items.map (fun i : Item =>
        (i.attrs.map (fun attr => attr.args.map (·.text)), BindingTarget.ofAttributes? i.attrs))
      = [([some ("E, r#type" : Text)], .error ⟨.malformedVariantOf, 0, none⟩)])
    (by decide +kernel)
  obtain ⟨item, rfl, same⟩ := List.map_eq_singleton_iff.mp one
  obtain ⟨args, refused⟩ := Prod.mk.inj same
  exact ⟨written, item, scanned, args, refused⟩

end EnumExtract
