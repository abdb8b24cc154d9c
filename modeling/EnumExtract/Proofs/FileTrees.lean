/-
  EnumExtract.Proofs.FileTrees
  ────────────────────────────────
  What changes in a file tree, and what stays.

  Making directories fills places that held nothing, also where it is refused on
  the way (`Grows`).  Writing puts a file at the one place that its path names and
  does nothing else to the files (`Wrote`).  A directory is never taken away, so a
  path that led somewhere leads there still, and only the file written to can be
  read differently.

  Main results:
    • `read_ok_iff`                the file a path leads to is at the place it names,
    • `makeDirectories_grows`      directories made, or refused halfway,
    • `writeWithParents_failed`    a refused write,
    • `writeWithParents_wrote`     a write that goes through,
    • `Wrote.read_elsewhere`       what it leaves as it was.
-/
import EnumExtract.Command.FileTree

namespace EnumExtract

namespace FileTree

variable {tree made after : FileTree} {place found : Place} {path : Path} {content bytes : List UInt8}

/-! ## §1. What a place holds. -/

theorem lookup_cons (other : Place) (entry : Place × Node) (rest : List (Place × Node)) :
    (entry :: rest).lookup other = if other = entry.1 then some entry.2 else rest.lookup other := by
  rw [List.lookup_cons]
  by_cases same : other = entry.1
  · rw [if_pos same, beq_iff_eq.mpr same]
  · rw [if_neg same, beq_eq_false_iff_ne.mpr same]

theorem lookup_put (node : Node) (nodes : List (Place × Node)) (other : Place) :
    (set.put place node nodes).lookup other
      = if other = place then some node else nodes.lookup other := by
  induction nodes with
  | nil => exact lookup_cons other (place, node) []
  | cons entry nodes ih =>
      unfold set.put
      by_cases here : entry.1 = place
      · -- the entry of the place is replaced, and any later one stays hidden behind it
        rw [if_pos here, lookup_cons, lookup_cons, here]
        split <;> rfl
      · rw [if_neg here, lookup_cons, lookup_cons, ih]
        by_cases same : other = entry.1
        · rw [if_pos same, if_pos same, if_neg (same ▸ here)]
        · rw [if_neg same, if_neg same]

/-- A change at one place leaves the others alone. -/
theorem node?_set_of_ne {node : Node} {other : Place} (apart : other ≠ place) :
    (tree.set place node).node? other = tree.node? other := by
  unfold node?
  split
  · rfl
  · show (set.put place node tree.nodes).lookup other = _
    rw [lookup_put, if_neg apart]

theorem node?_set_self {node : Node} (inner : place ≠ []) :
    (tree.set place node).node? place = some node := by
  unfold node?
  rw [if_neg (by simpa using inner)]
  show (set.put place node tree.nodes).lookup place = _
  rw [lookup_put, if_pos rfl]

/-- The same files with the same bytes are in both trees. -/
def SameFiles (tree after : FileTree) : Prop :=
  ∀ place content,
    after.node? place = some (.file content) ↔ tree.node? place = some (.file content)

theorem SameFiles.refl (tree : FileTree) : tree.SameFiles tree :=
  fun _ _ => Iff.rfl

/-! ## §2. Where paths lead. -/

theorem enter_nil_ok_iff :
    tree.enter place [] = .ok found ↔ tree.node? place = some .directory ∧ place = found := by
  unfold enter
  cases tree.node? place with
  | none => simp
  | some node => cases node <;> simp

theorem enter_cons_ok_iff {part : Text} {rest : List Text} :
    tree.enter place (part :: rest) = .ok found
      ↔ tree.node? place = some .directory
          ∧ tree.enter (Path.follow place part) rest = .ok found := by
  rw [enter]
  cases tree.node? place with
  | none => simp
  | some node => cases node <;> simp

/-- A path leads to the place that it names. -/
theorem enter_place {parts : List Text} (h : tree.enter place parts = .ok found) :
    found = parts.foldl Path.follow place := by
  induction parts generalizing place with
  | nil => exact (enter_nil_ok_iff.mp h).2.symm
  | cons part rest ih => exact ih (enter_cons_ok_iff.mp h).2

theorem locate_nil {root : PathRoot} :
    tree.locate ⟨root, []⟩ = tree.enter (Path.origin tree.cwd ⟨root, []⟩) [] :=
  rfl

theorem locate_concat {root : PathRoot} {parts : List Text} {last : Text} :
    tree.locate ⟨root, parts ++ [last]⟩
      = (tree.enter (Path.origin tree.cwd ⟨root, parts ++ [last]⟩) parts).map
          (Path.follow · last) := by
  unfold locate
  simp

theorem locate_place (h : tree.locate path = .ok place) : place = path.resolve tree.cwd := by
  obtain ⟨root, parts⟩ := path
  rcases List.eq_nil_or_concat parts with rfl | ⟨outer, last, rfl⟩
  · exact enter_place (locate_nil ▸ h)
  · rw [List.concat_eq_append, locate_concat] at h
    rw [List.concat_eq_append, Path.resolve, List.foldl_append]
    cases entered : tree.enter (Path.origin tree.cwd ⟨root, outer ++ [last]⟩) outer with
    | error kind => rw [entered] at h; exact nomatch h
    | ok directory =>
        rw [entered] at h
        rw [← enter_place entered]
        exact (Except.ok.inj h).symm

/-- A file is read at the place that its path names. -/
theorem read_ok_iff :
    tree.read path = .ok bytes
      ↔ tree.locate path = .ok (path.resolve tree.cwd)
          ∧ tree.node? (path.resolve tree.cwd) = some (.file bytes) := by
  unfold read
  cases located : tree.locate path with
  | error kind => simp
  | ok place =>
      rw [locate_place located]
      cases held : tree.node? (path.resolve tree.cwd) with
      | none => simp [held]
      | some node => cases node <;> simp [held]

theorem find?_of_read (h : tree.read path = .ok bytes) : tree.find? path = some (.file bytes) := by
  obtain ⟨located, held⟩ := read_ok_iff.mp h
  unfold find?
  rw [located]
  exact held

theorem isFile_iff : tree.isFile path = true ↔ ∃ bytes, tree.read path = .ok bytes := by
  unfold isFile find? read
  cases tree.locate path with
  | error kind => simp
  | ok place =>
      cases held : tree.node? place with
      | none => simp [held]
      | some node => cases node <;> simp [held]

/-! ## §3. Directories that stay. -/

/-- The working directory stays, and so does every directory. -/
structure KeepsDirectories (tree after : FileTree) : Prop where
  cwd : after.cwd = tree.cwd
  directory : ∀ place, tree.node? place = some .directory → after.node? place = some .directory

namespace KeepsDirectories

theorem trans (h : tree.KeepsDirectories made) (h' : made.KeepsDirectories after) :
    tree.KeepsDirectories after :=
  ⟨h'.cwd.trans h.cwd, fun place held => h'.directory place (h.directory place held)⟩

theorem enter (h : tree.KeepsDirectories after) {parts : List Text}
    (entered : tree.enter place parts = .ok found) : after.enter place parts = .ok found := by
  induction parts generalizing place with
  | nil =>
      obtain ⟨held, rfl⟩ := enter_nil_ok_iff.mp entered
      exact enter_nil_ok_iff.mpr ⟨h.directory _ held, rfl⟩
  | cons part rest ih =>
      obtain ⟨held, further⟩ := enter_cons_ok_iff.mp entered
      exact enter_cons_ok_iff.mpr ⟨h.directory _ held, ih further⟩

/-- A path that led somewhere leads there still. -/
theorem locate (h : tree.KeepsDirectories after) (located : tree.locate path = .ok place) :
    after.locate path = .ok place := by
  obtain ⟨root, parts⟩ := path
  rcases List.eq_nil_or_concat parts with rfl | ⟨outer, last, rfl⟩
  · rw [locate_nil, h.cwd]
    exact h.enter located
  · rw [List.concat_eq_append, locate_concat] at located ⊢
    rw [h.cwd]
    cases entered : tree.enter (Path.origin tree.cwd ⟨root, outer ++ [last]⟩) outer with
    | error kind => rw [entered] at located; exact nomatch located
    | ok directory => rwa [h.enter entered, ← entered]

end KeepsDirectories

/-! ## §4. Directories that are made. -/

/-- The later tree is the earlier one with directories where there was nothing. -/
structure Grows (tree after : FileTree) : Prop where
  cwd : after.cwd = tree.cwd
  node : ∀ place, after.node? place = tree.node? place
    ∨ tree.node? place = none ∧ after.node? place = some .directory

namespace Grows

theorem refl (tree : FileTree) : tree.Grows tree :=
  ⟨rfl, fun _ => .inl rfl⟩

theorem trans (h : tree.Grows made) (h' : made.Grows after) : tree.Grows after := by
  refine ⟨h'.cwd.trans h.cwd, fun place => ?_⟩
  rcases h'.node place with kept | ⟨missing, held⟩
  · rw [kept]
    exact h.node place
  · -- what was still missing in between was missing before
    rcases h.node place with same | ⟨_, directory⟩
    · exact .inr ⟨same ▸ missing, held⟩
    · rw [missing] at directory
      exact nomatch directory

theorem keepsDirectories (h : tree.Grows after) : tree.KeepsDirectories after := by
  refine ⟨h.cwd, fun place held => ?_⟩
  rcases h.node place with kept | ⟨_, directory⟩
  · exact kept.trans held
  · exact directory

theorem sameFiles (h : tree.Grows after) : tree.SameFiles after := by
  intro place content
  rcases h.node place with kept | ⟨missing, directory⟩
  · rw [kept]
  · rw [missing, directory]
    exact ⟨nofun, nofun⟩

/-- A file is read as before. -/
theorem read (h : tree.Grows after) (before : tree.read path = .ok bytes) :
    after.read path = .ok bytes := by
  obtain ⟨located, held⟩ := read_ok_iff.mp before
  rw [read_ok_iff, h.cwd]
  exact ⟨h.keepsDirectories.locate located, (h.sameFiles _ _).mpr held⟩

end Grows

theorem makeDirectory_grows (h : tree.makeDirectory path = .ok made) : tree.Grows made := by
  unfold makeDirectory at h
  cases located : tree.locate path with
  | error kind => rw [located] at h; exact nomatch h
  | ok place =>
      rw [located] at h
      dsimp only at h
      cases held : tree.node? place with
      | some node => rw [held] at h; exact nomatch h
      | none =>
          rw [held] at h
          obtain rfl := Except.ok.inj h
          have inner : place ≠ [] := fun root => nomatch root ▸ held
          refine ⟨rfl, fun other => ?_⟩
          by_cases same : other = place
          · rw [same]
            exact .inr ⟨held, node?_set_self inner⟩
          · exact .inl (node?_set_of_ne same)

theorem orExisting_tree (path : Path) (e : AccessError) : (tree.orExisting path e).2 = tree := by
  unfold orExisting
  split <;> rfl

/-- Also where a directory is refused, the ones on the way that were made are all that changed. -/
theorem makeDirectories_grows (tree : FileTree) (root : PathRoot) (reversed : List Text) :
    tree.Grows (tree.makeDirectories root reversed).2 := by
  induction reversed with
  | nil =>
      unfold makeDirectories
      split
      · next made eq => exact makeDirectory_grows eq
      · rw [orExisting_tree]
        exact .refl tree
  | cons part outer ih =>
      unfold makeDirectories
      dsimp only
      split
      · next made eq => exact makeDirectory_grows eq
      · split
        · rw [orExisting_tree]
          exact .refl tree
        · split
          · next outerError made eq =>
            rw [eq] at ih
            exact ih
          · -- the outer ones are there by now, and the inner one is tried again
            next made eq =>
            rw [eq] at ih
            split
            · next finished eq' => exact ih.trans (makeDirectory_grows eq')
            · rwa [orExisting_tree]

/-! ## §5. Files that are written. -/

/-- The later tree has `content` in the file that `path` leads to; elsewhere it is the earlier one
with directories where there was nothing. -/
structure Wrote (tree : FileTree) (path : Path) (content : List UInt8) (after : FileTree) : Prop where
  keeps : tree.KeepsDirectories after
  written : after.read path = .ok content
  elsewhere : ∀ place, place ≠ path.resolve tree.cwd → after.node? place = tree.node? place
    ∨ tree.node? place = none ∧ after.node? place = some .directory

namespace Wrote

/-- A file at another place is read as before. -/
theorem read_elsewhere (h : tree.Wrote path content after) {other : Path}
    (apart : other.resolve tree.cwd ≠ path.resolve tree.cwd) (before : tree.read other = .ok bytes) :
    after.read other = .ok bytes := by
  obtain ⟨located, held⟩ := read_ok_iff.mp before
  rw [read_ok_iff, h.keeps.cwd]
  refine ⟨h.keeps.locate located, ?_⟩
  rcases h.elsewhere _ apart with kept | ⟨missing, _⟩
  · exact kept.trans held
  · rw [missing] at held
    exact nomatch held

/-- Another spelling of the path leads to the file that was written. -/
theorem read_same (h : tree.Wrote path content after) {other : Path}
    (same : other.resolve tree.cwd = path.resolve tree.cwd) (before : tree.read other = .ok bytes) :
    after.read other = .ok content := by
  have held := (read_ok_iff.mp h.written).2
  rw [read_ok_iff, h.keeps.cwd, same]
  rw [h.keeps.cwd] at held
  exact ⟨h.keeps.locate (same ▸ (read_ok_iff.mp before).1), held⟩

/-- Of what is written twice the second counts. -/
theorem again (h : tree.Wrote path bytes made) (h' : made.Wrote path content after) :
    tree.Wrote path content after := by
  refine ⟨h.keeps.trans h'.keeps, h'.written, fun place apart => ?_⟩
  rcases h'.elsewhere place (h.keeps.cwd ▸ apart) with kept | ⟨missing, held⟩
  · rw [kept]
    exact h.elsewhere place apart
  · rcases h.elsewhere place apart with same | ⟨_, directory⟩
    · exact .inr ⟨same ▸ missing, held⟩
    · rw [missing] at directory
      exact nomatch directory

end Wrote

theorem write_failed {e : AccessError} (h : tree.write path content = (some e, after)) :
    after = tree := by
  unfold write at h
  split at h
  · exact (Prod.mk.inj h).2.symm
  · split at h
    · exact (Prod.mk.inj h).2.symm
    · exact nomatch (Prod.mk.inj h).1

theorem write_wrote (h : tree.write path content = (none, after)) :
    tree.Wrote path content after := by
  unfold write at h
  split at h
  · exact nomatch (Prod.mk.inj h).1
  · next place located =>
    split at h
    · exact nomatch (Prod.mk.inj h).1
    · next notDirectory =>
      obtain rfl := (Prod.mk.inj h).2
      obtain rfl := locate_place located
      have inner : path.resolve tree.cwd ≠ [] := fun root => notDirectory (root ▸ rfl)
      -- no directory is overwritten, so the path still leads where it did
      have keeps : tree.KeepsDirectories (tree.set (path.resolve tree.cwd) (.file content)) := by
        refine ⟨rfl, fun other held => ?_⟩
        have apart : other ≠ path.resolve tree.cwd := by
          rintro rfl
          exact notDirectory held
        exact (node?_set_of_ne apart).trans held
      exact ⟨keeps, read_ok_iff.mpr ⟨keeps.locate located, node?_set_self inner⟩,
        fun other apart => .inl (node?_set_of_ne apart)⟩

/-- What is a file may be written to. -/
theorem exists_write_of_read (h : tree.read path = .ok bytes) (content : List UInt8) :
    ∃ after, tree.write path content = (none, after) := by
  obtain ⟨located, held⟩ := read_ok_iff.mp h
  unfold write
  rw [located]
  dsimp only
  rw [held]
  exact ⟨_, rfl⟩

/-- A refused write has made directories at most. -/
theorem writeWithParents_failed {e : AccessError}
    (h : tree.writeWithParents path content = (some e, after)) : tree.Grows after := by
  have grows := makeDirectories_grows tree path.parent.root path.parent.parts.reverse
  unfold writeWithParents at h
  split at h
  · next made eq =>
    rw [eq] at grows
    exact (Prod.mk.inj h).2 ▸ grows
  · next made eq =>
    rw [eq] at grows
    rwa [write_failed h]

/-- **A write that goes through**: the file holds the content, and no other file is touched. -/
theorem writeWithParents_wrote (h : tree.writeWithParents path content = (none, after)) :
    tree.Wrote path content after := by
  have grows := makeDirectories_grows tree path.parent.root path.parent.parts.reverse
  unfold writeWithParents at h
  split at h
  · exact nomatch (Prod.mk.inj h).1
  · next made eq =>
    rw [eq] at grows
    have wrote := write_wrote h
    refine ⟨grows.keepsDirectories.trans wrote.keeps, wrote.written, fun place apart => ?_⟩
    rcases wrote.elsewhere place (grows.cwd ▸ apart) with kept | ⟨missing, held⟩
    · rw [kept]
      exact grows.node place
    · rcases grows.node place with same | ⟨_, directory⟩
      · exact .inr ⟨same ▸ missing, held⟩
      · rw [missing] at directory
        exact nomatch directory

end FileTree

end EnumExtract
