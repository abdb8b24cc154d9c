/-
  EnumExtract.Proofs.Runs
  ────────────────────────────────
  What a run does to the file tree.

  A run gets as far as comparing the output file only if its settings are valid,
  all sources can be read and a file can be generated from them (`Prepared`); short
  of that it leaves the tree alone.  From there it checks, or finds the output file
  up to date, or writes it, and the writing is the only thing that can touch a file.

  Everything is proved of runs whose arguments may hold bytes that are no text, and
  carried over to runs on text, where all can be encoded.

  Main results:
    • `runWith_of_prepared`, `runWith_of_not_prepared`   how far a run gets,
    • `write_cases`               the one place where a file is written,
    • `runWith_writes_nothing`    failures and checks,
    • `failures_write`            two failures that do leave something behind,
    • `run_cases`                 runs on text,
    • `run_keeps_sources`         the input and the schemas afterwards.
-/
import EnumExtract.Command.Run
import EnumExtract.Proofs.FileTrees
import EnumExtract.Proofs.Requests
import EnumExtract.Proofs.Utf8
import EnumExtract.Proofs.Walk

namespace EnumExtract

namespace Command

variable {tree after : FileTree} {arguments : List Text} {s : Settings} {source : SourceFile}
  {schemas : List SourceFile} {file : GeneratedFile} {output : Path} {lines : List Text}
  {content : Text} {e : Encoding} {o : Outcome}

/-! ## §1. How far a run gets. -/

/-- The settings are valid, the sources can be read, and `file` is generated from them. -/
structure Prepared (tree : FileTree) (s : Settings) (source : SourceFile)
    (schemas : List SourceFile) (file : GeneratedFile) : Prop where
  valid : s.validate tree = .ok ()
  input : tree.readSource s.input = .ok source
  others : s.schemas.mapM tree.readSource = .ok schemas
  generated : GeneratedFile.generate source schemas = .ok file

/-- The lines that are printed before the output file is looked at. -/
def announced (s : Settings) (schemas : List SourceFile) (file : GeneratedFile) : List Text :=
  let parsing : Text := "Parsing: " ++ s.input.text
  let schemaLines : List Text :=
    if schemas.isEmpty then [] else ["  Schema: " ++ Text.ofNat schemas.length ++ " files"]
  let declarations : Text :=
    "  Declarations: " ++ Text.ofNat (Summary.countOf .extract file.blocks) ++ " enums, "
      ++ Text.ofNat (Summary.countOf .bind file.blocks) ++ " bound structs"
  parsing :: schemaLines ++ [declarations]

/-- What a run prints that exits with 0. -/
def report (s : Settings) (source : SourceFile) (schemas : List SourceFile) (file : GeneratedFile)
    (status : OutputStatus) : Text :=
  Text.ofLines (announced s schemas file ++ [status.name ++ ": " ++ s.output.text])
    ++ (Summary.ofFile source.label s.output.text status.name file).report

theorem Prepared.unique {source' : SourceFile} {schemas' : List SourceFile} {file' : GeneratedFile}
    (h : Prepared tree s source schemas file) (h' : Prepared tree s source' schemas' file') :
    source = source' ∧ schemas = schemas' ∧ file = file' := by
  obtain rfl := Except.ok.inj (h.input.symm.trans h'.input)
  obtain rfl := Except.ok.inj (h.others.symm.trans h'.others)
  exact ⟨rfl, rfl, Except.ok.inj (h.generated.symm.trans h'.generated)⟩

/-- The run gets past the line that names the input. -/
def Announces (e : Encoding) (s : Settings) : Prop :=
  e.prints ("Parsing: " ++ s.input.text) = true

theorem runWith_of_prepared (request : Request.ofArguments arguments = .run s)
    (h : Prepared tree s source schemas file) (announces : Announces e s) :
    runWith e tree arguments
      = if s.check then check e tree s.output file (announced s schemas file)
        else write e tree source s.output file (announced s schemas file) := by
  unfold runWith
  rw [request]
  dsimp only
  rw [h.valid]
  dsimp only
  have read : (do
      let source ← tree.readSource s.input
      return (source, ← s.schemas.mapM tree.readSource)) = Except.ok (source, schemas) :=
    bind_ok_iff.mpr ⟨source, h.input, bind_ok_iff.mpr ⟨schemas, h.others, rfl⟩⟩
  unfold generate
  dsimp only
  rw [read, if_neg (by rw [announces]; exact Bool.false_ne_true)]
  dsimp only
  rw [h.generated]
  rfl

theorem ending_tree (o : Outcome) : (e.ending o).tree = o.tree := by
  unfold Encoding.ending
  split <;> rfl

theorem ending_exit (failed : o.exit = 1) : (e.ending o).exit = 1 := by
  unfold Encoding.ending
  split
  · exact failed
  · rfl

/-- Whatever keeps a run from looking at the output file, it fails and leaves the tree alone. -/
theorem runWith_of_not_prepared (request : Request.ofArguments arguments = .run s)
    (h : ¬ (Announces e s ∧ ∃ source schemas file, Prepared tree s source schemas file)) :
    (runWith e tree arguments).exit = 1 ∧ (runWith e tree arguments).tree = tree := by
  unfold runWith
  rw [request]
  dsimp only
  split
  · exact ⟨ending_exit rfl, ending_tree _⟩
  · next valid =>
    unfold generate
    dsimp only
    split
    · exact ⟨rfl, rfl⟩
    · next printed =>
      split
      · next read => exact ⟨rfl, rfl⟩
      · next source schemas read =>
        obtain ⟨_, readSource, readRest⟩ := bind_ok_iff.mp read
        obtain ⟨_, readSchemas, pair⟩ := bind_ok_iff.mp readRest
        obtain ⟨rfl, rfl⟩ := Prod.mk.inj (Except.ok.inj pair)
        split
        · exact ⟨rfl, rfl⟩
        · next file generated =>
          have announces : Announces e s := by simpa [Announces] using printed
          exact absurd ⟨announces, _, _, file, valid, readSource, readSchemas, generated⟩ h

/-- Without a request to run, nothing is done to the tree. -/
theorem runWith_of_no_request (h : ∀ s, Request.ofArguments arguments ≠ .run s) :
    (runWith e tree arguments).tree = tree := by
  unfold runWith
  split
  · rfl
  · rfl
  · next s request => exact absurd request (h s)

/-! ## §2. The end of a run. -/

theorem check_tree (e : Encoding) (tree : FileTree) (output : Path) (file : GeneratedFile)
    (lines : List Text) : (check e tree output file lines).tree = tree := by
  unfold check
  split
  · rfl
  · rfl
  · rfl
  · exact ending_tree _

/-- A file is compared as up to date, stale or missing, if it can be compared. -/
theorem compare_status {status : OutputStatus}
    (h : tree.compare output content = .ok status) :
    status = .upToDate ∨ status = .stale ∨ status = .missing := by
  unfold FileTree.compare at h
  split at h
  · exact .inr (.inr (Except.ok.inj h).symm)
  · cases read : tree.readText output with
    | error e => rw [read] at h; exact nomatch h
    | ok text =>
        rw [read] at h
        have same : (if text = content then OutputStatus.upToDate else .stale) = status :=
          Except.ok.inj h
        rw [← same]
        split
        · exact .inl rfl
        · exact .inr (.inl rfl)

/-- A check succeeds on an output file that is up to date, and only there. -/
theorem check_exit_iff :
    (check .total tree output file lines).exit = 0
      ↔ tree.compare output file.content = .ok .upToDate := by
  unfold check
  cases compared : tree.compare output file.content with
  | error error => simp [Ending.exit]
  | ok status =>
      obtain rfl | rfl | rfl := compare_status compared
      · exact ⟨fun _ => rfl, fun _ => rfl⟩
      all_goals simp [Ending.exit]

/-- **A text is written** unless it is refused, and then directories have been made at most, or
cannot be encoded, and then the file is left empty. -/
theorem writeText_cases (tree : FileTree) (e : Encoding) (path : Path) (content : Text) :
    (∃ error made, tree.writeText e path content = (some (.access error), made) ∧ tree.Grows made)
      ∨ (e.encodes content = false
        ∧ ∃ opened, tree.writeText e path content = (some .encoding, opened) ∧ tree.Wrote path [] opened)
      ∨ (e.encodes content = true ∧ ∃ after, tree.writeText e path content = (none, after)
        ∧ tree.Wrote path content.toUtf8 after) := by
  unfold FileTree.writeText
  split
  · next error made failed => exact .inl ⟨error, made, rfl, FileTree.writeWithParents_failed failed⟩
  · next opened created =>
    have empty := FileTree.writeWithParents_wrote created
    split
    · next encodes =>
      -- the file is there by now, so writing to it is not refused
      obtain ⟨after, written⟩ := FileTree.exists_write_of_read empty.written content.toUtf8
      rw [written]
      exact .inr (.inr ⟨encodes, after, rfl, empty.again (FileTree.write_wrote written)⟩)
    · next foreign =>
      exact .inr (.inl ⟨by simpa using foreign, opened, rfl, empty⟩)

/-- **The one place where a file is written.**  A run that is to write fails with directories
made at most, or finds the output file up to date, or has emptied it for a text that cannot be
encoded, or has written it. -/
theorem write_cases (e : Encoding) (tree : FileTree) (source : SourceFile) (output : Path)
    (file : GeneratedFile) (lines : List Text) :
    ((write e tree source output file lines).exit = 1
        ∧ tree.Grows (write e tree source output file lines).tree)
      ∨ (tree.compare output file.content = .ok .upToDate
        ∧ write e tree source output file lines
          = e.ending (finish tree source output file lines .unchanged))
      ∨ (e.encodes file.content = false
        ∧ ∃ opened, tree.Wrote output [] opened
          ∧ write e tree source output file lines = .uncaught opened)
      ∨ (tree.compare output file.content ≠ .ok .upToDate
        ∧ ∃ after, tree.Wrote output file.content.toUtf8 after
          ∧ write e tree source output file lines
            = e.ending (finish after source output file lines .generated)) := by
  unfold write
  split
  · exact .inl ⟨rfl, .refl tree⟩
  · next compared => exact .inr (.inl ⟨compared, rfl⟩)
  · next status outdated compared =>
    have other : tree.compare output file.content ≠ .ok .upToDate := by
      intro upToDate
      exact outdated (Except.ok.inj (compared.symm.trans upToDate))
    rcases writeText_cases tree e output file.content with
      ⟨error, made, refused, grows⟩ | ⟨foreign, opened, emptied, wrote⟩ | ⟨_, after, written, wrote⟩
    · rw [refused]
      exact .inl ⟨rfl, grows⟩
    · rw [emptied]
      exact .inr (.inr (.inl ⟨foreign, opened, wrote, rfl⟩))
    · rw [written]
      exact .inr (.inr (.inr ⟨other, after, wrote, rfl⟩))

/-! ## §3. What a run leaves alone. -/

/-- **What a run does to the tree.**  It leaves the tree alone, or it is a prepared run without
`--check`.  This fails with directories made at most, or with the output file emptied for a text
that cannot be encoded; or the generated file is written, and the run succeeds if it can print
what it reports. -/
theorem runWith_cases (e : Encoding) (tree : FileTree) (arguments : List Text) :
    (runWith e tree arguments).tree = tree
      ∨ ∃ s source schemas file, Request.ofArguments arguments = .run s ∧ s.check = false
          ∧ Prepared tree s source schemas file
          ∧ ((runWith e tree arguments).exit = 1 ∧ tree.Grows (runWith e tree arguments).tree
            ∨ e.encodes file.content = false ∧ (runWith e tree arguments).exit = 1
              ∧ tree.Wrote s.output [] (runWith e tree arguments).tree
            ∨ ((runWith e tree arguments).exit = 0
                ∨ e.prints (report s source schemas file .generated) = false)
              ∧ tree.Wrote s.output file.content.toUtf8 (runWith e tree arguments).tree) := by
  -- the tree is written to in one case only: a request, all of it prepared, and no `--check`
  by_cases requested : ∃ s, Request.ofArguments arguments = .run s
  · obtain ⟨s, request⟩ := requested
    by_cases prepared : Announces e s ∧ ∃ source schemas file, Prepared tree s source schemas file
    · obtain ⟨announces, source, schemas, file, prepared⟩ := prepared
      have run_eq := runWith_of_prepared request prepared announces
      cases checks : s.check with
      | true =>
          rw [if_pos checks] at run_eq
          rw [run_eq]
          exact .inl (check_tree ..)
      | false =>
          rw [if_neg (by simp [checks])] at run_eq
          rw [run_eq]
          rcases write_cases e tree source s.output file (announced s schemas file) with
            failed | ⟨_, unchanged⟩ | ⟨foreign, opened, wrote, emptied⟩ | ⟨_, after, wrote, generated⟩
          · exact .inr ⟨s, source, schemas, file, request, checks, prepared, .inl failed⟩
          · rw [unchanged, ending_tree]
            exact .inl rfl
          · rw [emptied]
            exact .inr ⟨s, source, schemas, file, request, checks, prepared,
              .inr (.inl ⟨foreign, rfl, wrote⟩)⟩
          · rw [generated, ending_tree]
            refine .inr ⟨s, source, schemas, file, request, checks, prepared, .inr (.inr ⟨?_, wrote⟩)⟩
            unfold Encoding.ending
            split
            · exact .inl rfl
            · next unprinted => exact .inr (Bool.not_eq_true _ ▸ unprinted)
    · exact .inl (runWith_of_not_prepared request prepared).2
  · exact .inl (runWith_of_no_request fun s request => requested ⟨s, request⟩)

/-- A run that checks leaves the tree alone. -/
theorem runWith_tree_of_check (request : Request.ofArguments arguments = .run s)
    (checks : s.check = true) : (runWith e tree arguments).tree = tree := by
  rcases runWith_cases e tree arguments with same | ⟨s', _, _, _, request', unchecked, _⟩
  · exact same
  · obtain rfl := Request.run.inj (request.symm.trans request')
    rw [checks] at unchecked
    exact nomatch unchecked

/-- The run writes the generated file, but cannot encode it, or cannot print that it has done so. -/
def IsHalfDone (e : Encoding) (tree : FileTree) (s : Settings) (after : FileTree) : Prop :=
  ∃ source schemas file, Prepared tree s source schemas file
    ∧ (e.encodes file.content = false ∧ tree.Wrote s.output [] after
      ∨ e.prints (report s source schemas file .generated) = false
        ∧ tree.Wrote s.output file.content.toUtf8 after)

/-- **Failures and checks write nothing**, save for text that cannot be encoded: a run that exits
with another status than 0, and any run whose arguments have `--check` among them, makes
directories at most, unless it is a run without `--check` that breaks off half done. -/
theorem runWith_writes_nothing (e : Encoding) (tree : FileTree) (arguments : List Text)
    (h : (runWith e tree arguments).exit ≠ 0
      ∨ ∃ a ∈ arguments, Argument.classify a = .ok (.option .check none)) :
    tree.Grows (runWith e tree arguments).tree
      ∨ ∃ s, Request.ofArguments arguments = .run s ∧ s.check = false
        ∧ IsHalfDone e tree s (runWith e tree arguments).tree := by
  rcases runWith_cases e tree arguments with
    same | ⟨s, source, schemas, file, request, unchecked, prepared, ⟨_, grows⟩ | ⟨foreign, _, emptied⟩
      | ⟨succeeds | unprinted, wrote⟩⟩
  · rw [same]
    exact .inl (.refl tree)
  · exact .inl grows
  · exact .inr ⟨s, request, unchecked, source, schemas, file, prepared, .inl ⟨foreign, emptied⟩⟩
  · rcases h with fails | ⟨a, mem, spelled⟩
    · exact absurd succeeds fails
    · have checks := Request.check_of_mem request mem spelled
      rw [unchecked] at checks
      exact nomatch checks
  · exact .inr ⟨s, request, unchecked, source, schemas, file, prepared, .inr ⟨unprinted, wrote⟩⟩

/-- A tree with an output file that is not what would be generated, and a source that ends too
early. -/
def outdated : FileTree :=
  ⟨["w"], [(["w"], .directory),
    (["w", "i.rs"], .file (Text.toUtf8 "#[extract_variant] enum E \x7b A \x7d")),
    (["w", "u.rs"], .file (Text.toUtf8 "mod m \x7b")),
    (["w", "o.rs"], .file (Text.toUtf8 "enum E \x7b\x7d"))]⟩

/-- A replacement character stands for a byte that is no text. -/
def replacing : Encoding :=
  ⟨(· = '\ufffd'), true⟩

/-- A check and a failure. -/
theorem outdated_kept :
    outdated.Grows (runWith replacing outdated ["--in", "i.rs", "--check", "--out=o.rs"]).tree
      ∧ (runWith replacing outdated ["--in", "u.rs", "--out", "o.rs"]).exit ≠ 0
      ∧ outdated.Grows (runWith replacing outdated ["--in", "u.rs", "--out", "o.rs"]).tree := by
  have fails : (runWith replacing outdated ["--in", "u.rs", "--out", "o.rs"]).exit ≠ 0 := by
    decide +kernel
  refine ⟨(runWith_writes_nothing _ _ _ (.inr ⟨"--check", by decide, by decide⟩)).resolve_right ?_,
    fails, (runWith_writes_nothing _ _ _ (.inl fails)).resolve_right ?_⟩
  · rintro ⟨s, request, unchecked, _⟩
    have checks := Request.check_of_mem request (a := "--check") (by decide) (by decide)
    rw [unchecked] at checks
    exact nomatch checks
  · rintro ⟨s, request, _, source, schemas, file, prepared, _⟩
    obtain rfl : s = ⟨Path.ofText "u.rs", Path.ofText "o.rs", [], false⟩ :=
      Request.run.inj (request.symm.trans (by decide))
    obtain rfl : source = ⟨"u.rs", "mod m \x7b"⟩ :=
      Except.ok.inj (prepared.input.symm.trans (by decide +kernel))
    obtain rfl : schemas = [] := Except.ok.inj (prepared.others.symm.trans rfl)
    have unclosed : (GeneratedFile.generate ⟨"u.rs", "mod m \x7b"⟩ []).isOk = false := by decide +kernel
    rw [prepared.generated] at unclosed
    exact nomatch unclosed

/-- A tree with two empty files, of which one has a name that is no text. -/
def foreignFiles : FileTree :=
  ⟨[], [(["i.rs"], .file []), (["\ufffd.rs"], .file [])]⟩

/-- **Two runs that fail write.**  One breaks off with the output file created and empty, since the
name of the schema cannot be encoded; one has made a directory on the way to a place that lies
below a file. -/
theorem failures_write :
    ((runWith replacing foreignFiles ["--in", "i.rs", "--out", "o.rs", "--schema", "\ufffd.rs"]).exit = 1
      ∧ foreignFiles.node? ["o.rs"] = none
      ∧ (runWith replacing foreignFiles ["--in", "i.rs", "--out", "o.rs", "--schema", "\ufffd.rs"]).tree.node?
        ["o.rs"] = some (.file []))
    ∧ (run foreignFiles ["--in", "i.rs", "--out", "new/../i.rs/o.rs"]).exit = 1
      ∧ foreignFiles.node? ["new"] = none
      ∧ (run foreignFiles ["--in", "i.rs", "--out", "new/../i.rs/o.rs"]).tree.node? ["new"]
        = some .directory := by
  refine ⟨⟨?_, rfl, ?_⟩, ?_, rfl, ?_⟩
  all_goals decide +kernel

/-! ## §4. Runs on text. -/

theorem encodes_total (t : Text) : Encoding.total.encodes t = true := by
  simp [Encoding.encodes, Encoding.total]

theorem announces_total (s : Settings) : Announces .total s :=
  Bool.true_or _

theorem result_exit (ended : Ending) : ended.result.exit = ended.exit := by
  cases ended <;> rfl

theorem result_tree (ended : Ending) : ended.result.tree = ended.tree := by
  cases ended <;> rfl

theorem run_exit : (run tree arguments).exit = (runWith .total tree arguments).exit :=
  result_exit _

theorem run_tree : (run tree arguments).tree = (runWith .total tree arguments).tree :=
  result_tree _

theorem run_of_prepared (request : Request.ofArguments arguments = .run s)
    (h : Prepared tree s source schemas file) :
    run tree arguments
      = (if s.check then check .total tree s.output file (announced s schemas file)
        else write .total tree source s.output file (announced s schemas file)).result := by
  rw [run, runWith_of_prepared request h (announces_total s)]

theorem run_of_not_prepared (request : Request.ofArguments arguments = .run s)
    (h : ¬ ∃ source schemas file, Prepared tree s source schemas file) :
    (run tree arguments).exit = 1 ∧ (run tree arguments).tree = tree := by
  rw [run_exit, run_tree]
  exact runWith_of_not_prepared request fun found => h found.2

/-- A run on text that is to write fails with directories made at most, or finds the output file up
to date, or has written it. -/
theorem write_total_cases (tree : FileTree) (source : SourceFile) (output : Path)
    (file : GeneratedFile) (lines : List Text) :
    let ended := (write .total tree source output file lines).result
    (ended.exit = 1 ∧ tree.Grows ended.tree)
      ∨ (tree.compare output file.content = .ok .upToDate
        ∧ ended = finish tree source output file lines .unchanged)
      ∨ (tree.compare output file.content ≠ .ok .upToDate
        ∧ ∃ after, tree.Wrote output file.content.toUtf8 after
          ∧ ended = finish after source output file lines .generated) := by
  intro ended
  rcases write_cases .total tree source output file lines with
    ⟨failed, grows⟩ | ⟨compared, unchanged⟩ | ⟨foreign, _⟩ | ⟨other, after, wrote, generated⟩
  · exact .inl ⟨(result_exit _).trans failed, (result_tree _).symm ▸ grows⟩
  · exact .inr (.inl ⟨compared, congrArg Ending.result unchanged⟩)
  · rw [encodes_total] at foreign
    exact nomatch foreign
  · exact .inr (.inr ⟨other, after, wrote, congrArg Ending.result generated⟩)

/-- A run on text leaves the tree alone, or it is a prepared run without `--check`, which fails
with directories made at most or succeeds with the generated file written. -/
theorem run_cases (tree : FileTree) (arguments : List Text) :
    (run tree arguments).tree = tree
      ∨ ∃ s source schemas file, Request.ofArguments arguments = .run s ∧ s.check = false
          ∧ Prepared tree s source schemas file
          ∧ ((run tree arguments).exit = 1 ∧ tree.Grows (run tree arguments).tree
            ∨ (run tree arguments).exit = 0
              ∧ tree.Wrote s.output file.content.toUtf8 (run tree arguments).tree) := by
  rw [run_exit, run_tree]
  rcases runWith_cases .total tree arguments with
    same | ⟨s, source, schemas, file, request, unchecked, prepared, failed | ⟨foreign, _⟩
      | ⟨succeeds | unprinted, wrote⟩⟩
  · exact .inl same
  · exact .inr ⟨s, source, schemas, file, request, unchecked, prepared, .inl failed⟩
  · rw [encodes_total] at foreign
    exact nomatch foreign
  · exact .inr ⟨s, source, schemas, file, request, unchecked, prepared, .inr ⟨succeeds, wrote⟩⟩
  · exact nomatch unprinted

/-- A run that checks leaves the tree alone. -/
theorem run_tree_of_check (request : Request.ofArguments arguments = .run s)
    (checks : s.check = true) : (run tree arguments).tree = tree := by
  rw [run_tree]
  exact runWith_tree_of_check request checks

/-- On text, failures and checks leave every file as it was and add none. -/
theorem run_writes_nothing (tree : FileTree) (arguments : List Text)
    (h : (run tree arguments).exit ≠ 0
      ∨ ∃ a ∈ arguments, Argument.classify a = .ok (.option .check none)) :
    tree.SameFiles (run tree arguments).tree := by
  rw [run_exit] at h
  rw [run_tree]
  rcases runWith_writes_nothing .total tree arguments h with
    grows | ⟨_, _, _, _, _, _, _, ⟨foreign, _⟩ | ⟨unprinted, _⟩⟩
  · exact grows.sameFiles
  · rw [encodes_total] at foreign
    exact nomatch foreign
  · exact nomatch unprinted

/-! ## §5. The input and the schemas. -/

theorem requireFile_ok_iff {flag : Flag} {p : Path} :
    Settings.requireFile tree flag p = .ok () ↔ tree.isFile p = true := by
  unfold Settings.requireFile
  split
  · next isFile => exact ⟨fun _ => isFile, fun _ => rfl⟩
  · next notFile => exact ⟨nofun, fun isFile => absurd isFile notFile⟩

theorem validate_ok_iff :
    s.validate tree = .ok ()
      ↔ tree.isFile s.input = true ∧ (∀ p ∈ s.schemas, tree.isFile p = true)
        ∧ s.output.resolve tree.cwd ≠ s.input.resolve tree.cwd := by
  have apart_iff : (if s.output.resolve tree.cwd = s.input.resolve tree.cwd then
        .error (.sameInputOutput s.output) else pure () : Except ConfigError Unit) = .ok ()
      ↔ s.output.resolve tree.cwd ≠ s.input.resolve tree.cwd := by
    split
    · next same => exact ⟨nofun, fun apart => absurd same apart⟩
    · next apart => exact ⟨fun _ => apart, fun _ => rfl⟩
  unfold Settings.validate
  simp only [then_ok_iff, forM_ok_iff, requireFile_ok_iff, apart_iff]

/-- **The sources after a run.**  The input holds what it held, and so does every schema file, save
one that lies where the output goes: a run that succeeds may leave it with the generated file. -/
theorem run_keeps_sources (tree : FileTree) (arguments : List Text) :
    (run tree arguments).tree = tree
      ∨ ∃ s, Request.ofArguments arguments = .run s
        ∧ (run tree arguments).tree.read s.input = tree.read s.input
        ∧ ∀ p ∈ s.schemas, (run tree arguments).tree.read p = tree.read p
          ∨ p.resolve tree.cwd = s.output.resolve tree.cwd ∧ s.check = false
            ∧ (run tree arguments).exit = 0
            ∧ ∃ source schemas file, Prepared tree s source schemas file
              ∧ (run tree arguments).tree.read p = .ok file.content.toUtf8 := by
  rcases run_cases tree arguments with
    same | ⟨s, source, schemas, file, request, unchecked, prepared, changed⟩
  · exact .inl same
  · right
    refine ⟨s, request, ?_⟩
    obtain ⟨inputFile, schemaFiles, apart⟩ := validate_ok_iff.mp prepared.valid
    obtain ⟨inputBytes, before⟩ := FileTree.isFile_iff.mp inputFile
    rcases changed with ⟨_, grows⟩ | ⟨succeeds, wrote⟩
    · -- a failed write has only made directories
      refine ⟨(grows.read before).trans before.symm, fun p mem => .inl ?_⟩
      obtain ⟨bytes, before⟩ := FileTree.isFile_iff.mp (schemaFiles p mem)
      exact (grows.read before).trans before.symm
    · refine ⟨(wrote.read_elsewhere apart.symm before).trans before.symm, fun p mem => ?_⟩
      obtain ⟨bytes, before⟩ := FileTree.isFile_iff.mp (schemaFiles p mem)
      by_cases same : p.resolve tree.cwd = s.output.resolve tree.cwd
      · -- nothing keeps a schema file apart from the output
        exact .inr ⟨same, unchecked, succeeds, source, schemas, file, prepared,
          wrote.read_same same before⟩
      · exact .inl ((wrote.read_elsewhere same before).trans before.symm)

/-- A tree with two empty files. -/
def twoFiles : FileTree :=
  ⟨[], [(["i.rs"], .file []), (["s.rs"], .file [])]⟩

/-- A command line that gives the second one as a schema and as the output. -/
def aliased : List Text :=
  ["--in", "i.rs", "--out", "s.rs", "--schema", "s.rs"]

/-- Nothing refuses a schema file that is the output too, and it is overwritten. -/
theorem twoFiles_schema_overwritten :
    ∃ s p, Request.ofArguments aliased = .run s ∧ p ∈ s.schemas
      ∧ twoFiles.read p = .ok [] ∧ (run twoFiles aliased).tree.read p ≠ .ok [] := by
  obtain ⟨file, generated, filled⟩ :
      ∃ file, GeneratedFile.generate ⟨"i.rs", []⟩ [⟨"s.rs", []⟩] = .ok file ∧ file.content ≠ [] :=
    ⟨_, rfl, by simp⟩
  have request : Request.ofArguments aliased
      = .run ⟨Path.ofText "i.rs", Path.ofText "s.rs", [Path.ofText "s.rs"], false⟩ := by decide
  have prepared : Prepared twoFiles
      ⟨Path.ofText "i.rs", Path.ofText "s.rs", [Path.ofText "s.rs"], false⟩
      ⟨"i.rs", []⟩ [⟨"s.rs", []⟩] file :=
    ⟨by decide, by decide, by decide, generated⟩
  have stale : twoFiles.compare (Path.ofText "s.rs") file.content = .ok .stale := by
    show Except.ok (if ([] : Text) = file.content then OutputStatus.upToDate else .stale) = _
    rw [if_neg filled.symm]
  have written : twoFiles.writeText .total (Path.ofText "s.rs") file.content
      = (none, twoFiles.set ["s.rs"] (.file file.content.toUtf8)) := by
    show (if Encoding.total.encodes file.content then _ else _) = _
    rw [if_pos (encodes_total _)]
    rfl
  refine ⟨_, Path.ofText "s.rs", request, List.mem_singleton.mpr rfl, by decide, ?_⟩
  rw [run_of_prepared request prepared, if_neg Bool.false_ne_true]
  unfold write
  rw [stale]
  dsimp only
  rw [written]
  intro h
  -- the file now holds the generated content, which is not empty
  have empty : file.content.toUtf8 = [] := Except.ok.inj h
  have back := Utf8.decode_toUtf8 file.content
  rw [empty] at back
  exact filled (Except.ok.inj back).symm

end Command

end EnumExtract
