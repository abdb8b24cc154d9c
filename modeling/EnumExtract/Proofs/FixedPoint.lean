/-
  EnumExtract.Proofs.FixedPoint
  ────────────────────────────────
  A second run changes nothing.

  What a run reads is untouched by what it writes, as long as no source lies where
  the output goes, so the next run generates the same file; and the file it has
  written is read back as it was generated.  A run that checks and a run that
  writes look at the output file in the same way.

  Main results:
    • `upToDate_of_wrote`        the output file after a run that has written it,
    • `Prepared.of_wrote`        what the next run finds,
    • `run_check_exit_iff`, `reports_unchanged_iff`   the two ways of comparing,
    • `run_fixedPoint`           one run after the other.
-/
import EnumExtract.Proofs.Contents
import EnumExtract.Proofs.Runs

namespace EnumExtract

open Text

/-! ## §1. Paths. -/

/-- A path is printed with the characters it was written with, and dots and slashes. -/
theorem Path.text_noReturn {t : Text} (h : t.NoReturn) : (Path.ofText t).text.NoReturn := by
  have parts : ∀ part ∈ (Path.ofText t).parts, Text.NoReturn part := by
    intro part mem
    exact h.of_subset (subset_of_mem_splitOnP (List.mem_of_mem_filter mem))
  have joined : Text.NoReturn (join "/" (Path.ofText t).parts) := noReturn_join (by decide) parts
  unfold Path.text
  split
  · decide
  · exact joined
  · exact noReturn_append.mpr ⟨by decide, joined⟩
  · exact noReturn_append.mpr ⟨by decide, joined⟩

namespace FileTree

variable {tree after : FileTree} {path : Path} {source : SourceFile} {content : Text}

theorem readText_noReturn {text : Text} (h : tree.readText path = .ok text) : text.NoReturn := by
  unfold readText at h
  split at h
  · exact nomatch h
  · split at h
    · exact nomatch h
    · exact Except.ok.inj h ▸ normalizeLineEnds_noReturn _

theorem readSource_ok_iff :
    tree.readSource path = .ok source
      ↔ ∃ text, tree.readText path = .ok text ∧ source = ⟨path.text, text⟩ := by
  unfold readSource
  cases tree.readText path with
  | error e => exact ⟨nofun, fun ⟨_, eq, _⟩ => nomatch eq⟩
  | ok text =>
      exact ⟨fun h => ⟨text, rfl, (Except.ok.inj h).symm⟩,
        fun ⟨_, eq, same⟩ => by rw [same, Except.ok.inj eq]; rfl⟩

/-- A file with the same bytes is the same source. -/
theorem readSource_congr (h : after.read path = tree.read path) :
    after.readSource path = tree.readSource path := by
  unfold readSource readText
  rw [h]

/-- **The output file after it has been written** is up to date: the text survives the way to
the file and back. -/
theorem upToDate_of_wrote (h : tree.Wrote path content.toUtf8 after) (clean : content.NoReturn) :
    after.compare path content = .ok .upToDate := by
  unfold compare readText
  rw [find?_of_read h.written, h.written]
  dsimp only
  rw [Utf8.decode_toUtf8]
  dsimp only
  rw [normalizeLineEnds_eq clean]
  exact congrArg Except.ok (if_pos rfl)

end FileTree

namespace Command

variable {tree after : FileTree} {arguments : List Text} {s : Settings} {source : SourceFile}
  {schemas : List SourceFile} {file : GeneratedFile}

/-! ## §2. Prepared runs. -/

/-- What is prepared does not depend on whether the output is to be checked. -/
theorem Prepared.with_check (h : Prepared tree s source schemas file) (check : Bool) :
    Prepared tree { s with check } source schemas file :=
  ⟨h.valid, h.input, h.others, h.generated⟩

theorem Prepared.content_noReturn (h : Prepared tree s source schemas file)
    (hi : s.input.text.NoReturn) (hs : ∀ p ∈ s.schemas, p.text.NoReturn) : file.content.NoReturn := by
  obtain ⟨text, read, rfl⟩ := FileTree.readSource_ok_iff.mp h.input
  refine (GeneratedFile.generate_noReturn ?_ hi fun schema mem => ?_).of_ok h.generated
  · exact FileTree.readText_noReturn read
  · obtain ⟨p, memPath, readSchema⟩ := exists_of_forall₂_right (mapM_ok_iff.mp h.others) mem
    obtain ⟨_, _, rfl⟩ := FileTree.readSource_ok_iff.mp readSchema
    exact hs p memPath

/-- **The next run finds what this one found**, if no schema lies where the output goes. -/
theorem Prepared.of_wrote (h : Prepared tree s source schemas file) {content : List UInt8}
    (wrote : tree.Wrote s.output content after)
    (apart : ∀ p ∈ s.schemas, p.resolve tree.cwd ≠ s.output.resolve tree.cwd) :
    Prepared after s source schemas file := by
  obtain ⟨inputFile, schemaFiles, inputApart⟩ := validate_ok_iff.mp h.valid
  have kept : ∀ p, tree.isFile p = true → p.resolve tree.cwd ≠ s.output.resolve tree.cwd →
      after.isFile p = true ∧ after.read p = tree.read p := by
    intro p isFile elsewhere
    obtain ⟨bytes, before⟩ := FileTree.isFile_iff.mp isFile
    have read := wrote.read_elsewhere elsewhere before
    exact ⟨FileTree.isFile_iff.mpr ⟨bytes, read⟩, read.trans before.symm⟩
  have input := kept s.input inputFile inputApart.symm
  refine ⟨validate_ok_iff.mpr ⟨input.1, fun p mem => (kept p (schemaFiles p mem) (apart p mem)).1, ?_⟩,
    (FileTree.readSource_congr input.2).trans h.input, ?_, h.generated⟩
  · rw [wrote.keeps.cwd]
    exact inputApart
  · refine (mapM_congr fun p mem => FileTree.readSource_congr ?_).trans h.others
    exact (kept p (schemaFiles p mem) (apart p mem)).2

/-! ## §3. What is reported. -/

/-- The run exits with 0 and reports the status, the lines before it and the figures behind it
being those of the file that is generated. -/
def Reports (tree : FileTree) (s : Settings) (status : OutputStatus) (o : Outcome) : Prop :=
  ∃ source schemas file, Prepared tree s source schemas file
    ∧ o.exit = 0 ∧ o.stdout = report s source schemas file status

/-- The output file that is there is the one that would be generated. -/
def UpToDate (tree : FileTree) (s : Settings) : Prop :=
  ∃ source schemas file, Prepared tree s source schemas file
    ∧ tree.compare s.output file.content = .ok .upToDate

theorem report_generated_ne (s : Settings) (source : SourceFile) (schemas : List SourceFile)
    (file : GeneratedFile) :
    report s source schemas file .generated ≠ report s source schemas file .unchanged := by
  intro same
  unfold report Text.ofLines at same
  simp only [List.flatMap_append, List.append_assoc] at same
  -- the lines before the status are the same, and its word is not
  have words := congrArg List.head? (List.append_cancel_left same)
  exact absurd (show some 'g' = some 'u' from words) (by decide)

/-- A check succeeds where the output file is up to date. -/
theorem run_check_exit_iff (request : Request.ofArguments arguments = .run s) (checks : s.check = true) :
    (run tree arguments).exit = 0 ↔ UpToDate tree s := by
  by_cases prepared : ∃ source schemas file, Prepared tree s source schemas file
  · obtain ⟨source, schemas, file, prepared⟩ := prepared
    rw [run_exit, runWith_of_prepared request prepared (announces_total s), if_pos checks, check_exit_iff]
    refine ⟨fun compared => ⟨source, schemas, file, prepared, compared⟩, ?_⟩
    rintro ⟨_, _, _, prepared', compared⟩
    obtain ⟨rfl, rfl, rfl⟩ := prepared.unique prepared'
    exact compared
  · rw [(run_of_not_prepared request prepared).1]
    exact ⟨nofun, fun ⟨source, schemas, file, found, _⟩ => absurd ⟨source, schemas, file, found⟩ prepared⟩

/-- A run without `--check` leaves an output file alone that is up to date. -/
theorem run_of_upToDate (request : Request.ofArguments arguments = .run s) (unchecked : s.check = false)
    (h : UpToDate tree s) :
    Reports tree s .unchanged (run tree arguments) ∧ (run tree arguments).tree = tree := by
  obtain ⟨source, schemas, file, prepared, compared⟩ := h
  rw [run_of_prepared request prepared, if_neg (by simp [unchecked])]
  unfold write
  rw [compared]
  exact ⟨⟨source, schemas, file, prepared, rfl, rfl⟩, rfl⟩

/-- A run without `--check` reports `unchanged` where the output file is up to date, and only
there. -/
theorem reports_unchanged_iff (request : Request.ofArguments arguments = .run s)
    (unchecked : s.check = false) :
    Reports tree s .unchanged (run tree arguments) ↔ UpToDate tree s := by
  refine ⟨?_, fun h => (run_of_upToDate request unchecked h).1⟩
  rintro ⟨source, schemas, file, prepared, exit, stdout⟩
  rw [run_of_prepared request prepared, if_neg (by simp [unchecked])] at exit stdout
  rcases write_total_cases tree source s.output file (announced s schemas file) with
    ⟨failed, _⟩ | ⟨compared, _⟩ | ⟨_, after, _, generated⟩
  · rw [failed] at exit
    exact nomatch exit
  · exact ⟨source, schemas, file, prepared, compared⟩
  · rw [generated] at stdout
    exact absurd stdout (report_generated_ne s source schemas file)

/-! ## §4. One run after the other. -/

/-- After a run that exits with 0 the output file is up to date. -/
theorem upToDate_of_run (request : Request.ofArguments arguments = .run s) (unchecked : s.check = false)
    (hi : s.input.text.NoReturn) (hs : ∀ p ∈ s.schemas, p.text.NoReturn)
    (apart : ∀ p ∈ s.schemas, p.resolve tree.cwd ≠ s.output.resolve tree.cwd)
    (exit : (run tree arguments).exit = 0) : UpToDate (run tree arguments).tree s := by
  by_cases prepared : ∃ source schemas file, Prepared tree s source schemas file
  · obtain ⟨source, schemas, file, prepared⟩ := prepared
    rw [run_of_prepared request prepared, if_neg (by simp [unchecked])] at exit ⊢
    rcases write_total_cases tree source s.output file (announced s schemas file) with
      ⟨failed, _⟩ | ⟨compared, unchanged⟩ | ⟨_, after, wrote, generated⟩
    · rw [failed] at exit
      exact nomatch exit
    · rw [unchanged]
      exact ⟨source, schemas, file, prepared, compared⟩
    · rw [generated]
      exact ⟨source, schemas, file, prepared.of_wrote wrote apart,
        FileTree.upToDate_of_wrote wrote (prepared.content_noReturn hi hs)⟩
  · rw [(run_of_not_prepared request prepared).1] at exit
    exact nomatch exit

theorem run_of_refused {e : UsageError} (refused : Request.ofArguments arguments = .refused e) :
    (run tree arguments).exit = 2 := by
  unfold run runWith
  rw [refused]
  rfl

/-- **Generating reaches a fixed point that `--check` recognises.**  After a run that exits with 0
the same command with `--check` exits with 0 and the same command again reports `unchanged`, and
neither changes the tree; and on every tree the one exits with 0 where the other reports
`unchanged`. -/
theorem run_fixedPoint (input output : Text) (schemas : List Text) (hi : input.NoReturn)
    (hs : ∀ schema ∈ schemas, schema.NoReturn) :
    let s : Settings :=
      ⟨Path.ofText input, Path.ofText output, schemas.map Path.ofText, false⟩
    let generating := Request.invocation input output schemas false
    let checking := Request.invocation input output schemas true
    (∀ tree : FileTree, (∀ p ∈ s.schemas, p.resolve tree.cwd ≠ s.output.resolve tree.cwd) →
        (run tree generating).exit = 0 →
        let after := (run tree generating).tree
        (run after checking).exit = 0 ∧ (run after checking).tree = after
          ∧ Reports after s .unchanged (run after generating) ∧ (run after generating).tree = after)
      ∧ ∀ tree : FileTree, (run tree checking).exit = 0 ↔ Reports tree s .unchanged (run tree generating) := by
  intro s generating checking
  have sourceLabel : s.input.text.NoReturn := Path.text_noReturn hi
  have schemaLabels : ∀ p ∈ s.schemas, p.text.NoReturn := by
    intro p mem
    obtain ⟨schema, memSchema, rfl⟩ := List.mem_map.mp mem
    exact Path.text_noReturn (hs schema memSchema)
  rcases Request.ofArguments_invocation input output schemas with requests | refused
  · have generates : Request.ofArguments generating = .run s := requests false
    have checks : Request.ofArguments checking = .run { s with check := true } := requests true
    -- `--check` plays no part in what a run would write
    have same_iff : ∀ tree, UpToDate tree { s with check := true } ↔ UpToDate tree s := fun tree =>
      ⟨fun ⟨_, _, _, prepared, compared⟩ => ⟨_, _, _, prepared.with_check false, compared⟩,
        fun ⟨_, _, _, prepared, compared⟩ => ⟨_, _, _, prepared.with_check true, compared⟩⟩
    have exit_iff : ∀ tree, (run tree checking).exit = 0 ↔ UpToDate tree s := fun tree =>
      (run_check_exit_iff checks rfl).trans (same_iff tree)
    refine ⟨fun tree apart exit => ?_, fun tree => ?_⟩
    · intro after
      have upToDate : UpToDate after s :=
        upToDate_of_run generates rfl sourceLabel schemaLabels apart exit
      obtain ⟨reports, kept⟩ := run_of_upToDate generates rfl upToDate
      exact ⟨(exit_iff after).mpr upToDate, run_tree_of_check checks rfl, reports, kept⟩
    · rw [exit_iff tree, reports_unchanged_iff generates rfl]
  · -- a command line that is refused is refused with and without `--check`
    obtain ⟨_, generates⟩ := refused false
    obtain ⟨_, checks⟩ := refused true
    refine ⟨fun tree _ exit => ?_, fun tree => ?_⟩
    · rw [run_of_refused generates] at exit
      exact nomatch exit
    · rw [run_of_refused checks]
      refine ⟨nofun, fun ⟨_, _, _, _, exit, _⟩ => ?_⟩
      rw [run_of_refused generates] at exit
      exact nomatch exit

/-- A source with an enum to extract and a struct to bind. -/
def freshSource : SourceFile :=
  ⟨"i.rs", "#[extract_variant] enum E \x7b A \x7d\n#[variant_of(S)] struct B;"⟩

/-- The schema with the enum that the struct is bound to. -/
def freshSchema : SourceFile :=
  ⟨"s.rs", "enum S \x7b B \x7d"⟩

/-- A tree with both, and nothing generated yet. -/
def fresh : FileTree :=
  ⟨["w"], [(["w"], .directory), (["w", "i.rs"], .file freshSource.text.toUtf8),
    (["w", "s.rs"], .file freshSchema.text.toUtf8)]⟩

theorem fresh_exit : (run fresh (Request.invocation "i.rs" "out/o.rs" ["s.rs"] false)).exit = 0 := by
  obtain ⟨file, generated, _⟩ := exists_ok_of_decide (p := fun _ => True)
    (x := GeneratedFile.generate freshSource [freshSchema]) (by decide +kernel)
  have request : Request.ofArguments (Request.invocation "i.rs" "out/o.rs" ["s.rs"] false)
      = .run ⟨Path.ofText "i.rs", Path.ofText "out/o.rs", [Path.ofText "s.rs"], false⟩ := by decide
  have prepared : Prepared fresh
      ⟨Path.ofText "i.rs", Path.ofText "out/o.rs", [Path.ofText "s.rs"], false⟩
      freshSource [freshSchema] file :=
    ⟨by decide +kernel, by decide +kernel, by decide +kernel, generated⟩
  have missing : fresh.compare (Path.ofText "out/o.rs") file.content = .ok .missing := rfl
  obtain ⟨after, written⟩ :
      ∃ after, fresh.writeText .total (Path.ofText "out/o.rs") file.content = (none, after) := by
    show ∃ after, (if Encoding.total.encodes file.content then _ else _) = (none, after)
    rw [if_pos (encodes_total _)]
    exact ⟨_, rfl⟩
  rw [run_of_prepared request prepared, if_neg Bool.false_ne_true]
  unfold write
  rw [missing]
  dsimp only
  rw [written]
  rfl

theorem fresh_fixedPoint :
    let after := (run fresh (Request.invocation "i.rs" "out/o.rs" ["s.rs"] false)).tree
    (run after (Request.invocation "i.rs" "out/o.rs" ["s.rs"] true)).exit = 0
      ∧ (run after (Request.invocation "i.rs" "out/o.rs" ["s.rs"] true)).tree = after
      ∧ Reports after ⟨Path.ofText "i.rs", Path.ofText "out/o.rs", [Path.ofText "s.rs"], false⟩ .unchanged
          (run after (Request.invocation "i.rs" "out/o.rs" ["s.rs"] false))
      ∧ (run after (Request.invocation "i.rs" "out/o.rs" ["s.rs"] false)).tree = after :=
  (run_fixedPoint "i.rs" "out/o.rs" ["s.rs"] (by decide) (by decide)).1 fresh (by decide) fresh_exit

end Command

end EnumExtract
