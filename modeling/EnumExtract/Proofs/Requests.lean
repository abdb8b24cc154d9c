/-
  EnumExtract.Proofs.Requests
  ────────────────────────────────
  What a list of arguments asks for.

  A request to run has seen every argument: none is left over, none is a `--`,
  and a `--check` anywhere has been noticed.  The plain command line, which
  gives input, output and schemas one option after the other, is a request to run
  if each value may stand as one; whether `--check` comes at its end makes no
  difference to that.

  Main results:
    • `check_of_mem`             `--check` is noticed wherever it stands,
    • `ofArguments_invocation`   the plain command line.
-/
import EnumExtract.Command.Request

namespace EnumExtract

variable {arguments : List Text} {given : Request.Given} {s : Settings}

/-! ## §1. What arguments are taken for. -/

namespace Argument

/-- The text may stand as the value of an option in the argument behind it. -/
def IsValue (t : Text) : Prop :=
  classify t = .ok (.value t)

/-- A `--` is taken for a shortened option, if for anything. -/
theorem IsValue.plain {t : Text} (h : IsValue t) : t ≠ "--" := by
  rintro rfl
  exact nomatch h

theorem undashed_value {t text : Text} (h : undashed t = .value text) : text = t := by
  unfold undashed at h
  split at h
  · exact (value.inj h).symm
  · exact nomatch h

/-- What is taken for a value is the argument as it stands. -/
theorem classify_value {t text : Text} (h : classify t = .ok (.value text)) : text = t := by
  unfold classify at h
  split at h
  · exact nomatch Except.ok.inj h
  · unfold classifyLong at h
    dsimp only at h
    split at h
    · exact undashed_value (Except.ok.inj h)
    · exact nomatch Except.ok.inj h
    · exact nomatch h
  · exact nomatch Except.ok.inj h
  · exact nomatch Except.ok.inj h
  · exact undashed_value (Except.ok.inj h)
  · exact (value.inj (Except.ok.inj h)).symm

theorem classifyAll_cons {t : Text} {argument : Argument} (plain : t ≠ "--")
    (taken : classify t = .ok argument) :
    classifyAll (t :: arguments) = (classifyAll arguments).map (argument :: ·) := by
  rw [classifyAll, if_neg plain, taken]

/-- An argument is taken for the same thing in a list, unless it stands behind a `--`. -/
theorem mem_classifyAll {t : Text} {argument : Argument} {classified : List Argument}
    (mem : t ∈ arguments) (taken : classify t = .ok argument)
    (h : classifyAll arguments = .ok classified) :
    .separator ∈ classified ∨ argument ∈ classified := by
  induction arguments generalizing classified with
  | nil => exact nomatch mem
  | cons first rest ih =>
      rw [classifyAll] at h
      by_cases dashes : first = "--"
      · rw [if_pos dashes] at h
        exact .inl (Except.ok.inj h ▸ List.mem_cons_self)
      · rw [if_neg dashes] at h
        cases firstTaken : classify first with
        | error e => rw [firstTaken] at h; exact nomatch h
        | ok head =>
            rw [firstTaken] at h
            dsimp only at h
            cases restTaken : classifyAll rest with
            | error e => rw [restTaken] at h; exact nomatch h
            | ok tail =>
                rw [restTaken] at h
                obtain rfl := Except.ok.inj h
                rcases List.mem_cons.mp mem with rfl | mem
                · rw [taken] at firstTaken
                  exact .inr (Except.ok.inj firstTaken ▸ List.mem_cons_self)
                · rcases ih mem restTaken with behind | found
                  · exact .inl (List.mem_cons_of_mem _ behind)
                  · exact .inr (List.mem_cons_of_mem _ found)

end Argument

open Argument

namespace Request

/-! ## §2. Requests to run. -/

theorem finish_run (h : given.finish = .run s) :
    given.unrecognized = [] ∧ s.check = given.check := by
  unfold Given.finish at h
  split at h
  · exact nomatch h
  · exact nomatch h
  · exact nomatch h
  · split at h
    · next empty => exact ⟨List.isEmpty_iff.mp empty, Request.run.inj h ▸ rfl⟩
    · exact nomatch h

theorem ofCluster_ne_run (letters : Text) : ofCluster letters ≠ .run s := by
  fun_induction ofCluster letters with
  | case1 => exact nofun
  | case2 letters _ ih => exact ih
  | case3 => exact nofun

/-- A request to run has every argument accounted for, and `--check` noticed. -/
theorem ofClassified_run {classified : List Argument} (h : ofClassified given classified = .run s) :
    given.unrecognized = [] ∧ .separator ∉ classified
      ∧ (given.check = true ∨ .option .check none ∈ classified → s.check = true) := by
  fun_induction ofClassified given classified with
  | case1 given =>
      obtain ⟨none, same⟩ := finish_run h
      exact ⟨none, nofun, fun noticed => same.trans (noticed.resolve_right nofun)⟩
  | case2 given t rest ih => exact absurd (ih h).1 (by simp [Given.addUnrecognized])
  | case3 given rest ih => exact absurd (ih h).1 (by simp [Given.addUnrecognized])
  | case4 given t rest ih => exact absurd (ih h).1 (by simp [Given.addUnrecognized])
  | case5 given letters rest => exact absurd h (ofCluster_ne_run letters)
  | case6 given flag value rest takes ih =>
      obtain ⟨none, unseparated, noticed⟩ := ih h
      have same : (given.setValue flag value).unrecognized = given.unrecognized
          ∧ (given.setValue flag value).check = given.check := by cases flag <;> exact ⟨rfl, rfl⟩
      exact ⟨same.1 ▸ none, by simpa using unseparated, by simpa [← same.2] using noticed⟩
  | case7 => exact nomatch h
  | case8 => exact nomatch h
  | case9 given rest ih =>
      obtain ⟨none, unseparated, noticed⟩ := ih h
      exact ⟨none, by simpa using unseparated, fun _ => noticed (.inl rfl)⟩
  | case10 given flag t rest _ notCheck ih =>
      obtain ⟨none, unseparated, noticed⟩ := ih h
      have same : (given.setValue flag t).unrecognized = given.unrecognized
          ∧ (given.setValue flag t).check = given.check := by cases flag <;> exact ⟨rfl, rfl⟩
      refine ⟨same.1 ▸ none, by simpa using unseparated, fun seen => noticed ?_⟩
      rw [same.2]
      refine seen.imp_right fun mem => ?_
      simpa [Ne.symm notCheck] using mem
  | case11 => exact nomatch h

/-- **`--check` is noticed** wherever it stands, also shortened: a list of arguments with it in it
either asks for a check or for no run at all. -/
theorem check_of_mem (h : ofArguments arguments = .run s) {a : Text} (mem : a ∈ arguments)
    (spelled : classify a = .ok (.option .check none)) : s.check = true := by
  unfold ofArguments at h
  cases all : classifyAll arguments with
  | error e => rw [all] at h; exact nomatch h
  | ok classified =>
      rw [all] at h
      obtain ⟨_, unseparated, noticed⟩ := ofClassified_run h
      exact noticed (.inr ((mem_classifyAll mem spelled all).resolve_left unseparated))

/-! ## §3. The plain command line. -/

/-- Each schema in the argument behind its option. -/
def schemaOptions (schemas : List Text) : List Text :=
  schemas.flatMap fun schema => [Flag.schema.long, schema]

/-- The command line that gives each path in the argument behind its option. -/
def invocation (input output : Text) (schemas : List Text) (check : Bool) : List Text :=
  Flag.input.long :: input :: Flag.output.long :: output
    :: (schemaOptions schemas ++ (if check then [Flag.check.long] else []))

/-- What arguments ask for after those that came to `given`. -/
def ofRest (given : Given) (arguments : List Text) : Request :=
  match classifyAll arguments with
  | .error e => .refused e
  | .ok classified => ofClassified given classified

theorem ofRest_value {flag : Flag} {value : Text} (takes : flag.takesValue = true)
    (isValue : IsValue value) :
    ofRest given (flag.long :: value :: arguments) = ofRest (given.setValue flag value) arguments := by
  have option : classify flag.long = .ok (.option flag none) := by cases flag <;> rfl
  have plain : flag.long ≠ "--" := by cases flag <;> decide
  unfold ofRest
  rw [classifyAll_cons plain option, classifyAll_cons isValue.plain isValue]
  cases classifyAll arguments with
  | error e => rfl
  | ok rest => cases flag <;> first | rfl | exact nomatch takes

/-- An option that wants a value is refused without one. -/
theorem ofRest_noValue {flag : Flag} {t : Text} (takes : flag.takesValue = true)
    (noValue : ¬ IsValue t) : ∃ e, ofRest given (flag.long :: t :: arguments) = .refused e := by
  have option : classify flag.long = .ok (.option flag none) := by cases flag <;> rfl
  have plain : flag.long ≠ "--" := by cases flag <;> decide
  unfold ofRest
  rw [classifyAll_cons plain option]
  cases all : classifyAll (t :: arguments) with
  | error e => exact ⟨e, rfl⟩
  | ok classified =>
      -- the first of them is no value, whatever else it is
      have first : ∀ text rest, classified ≠ .value text :: rest := by
        rintro text rest rfl
        rw [classifyAll] at all
        split at all
        · exact nomatch Except.ok.inj all
        · cases taken : classify t with
          | error e => rw [taken] at all; exact nomatch all
          | ok argument =>
              rw [taken] at all
              dsimp only at all
              cases more : classifyAll arguments with
              | error e => rw [more] at all; exact nomatch all
              | ok tail =>
                  rw [more] at all
                  obtain ⟨rfl, _⟩ := List.cons.inj (Except.ok.inj all)
                  obtain rfl := classify_value taken
                  exact noValue taken
      show ∃ e, ofClassified given (.option flag none :: classified) = .refused e
      cases flag with
      | help => exact nomatch takes
      | check => exact nomatch takes
      | input | output | schema =>
          cases classified with
          | nil => exact ⟨_, rfl⟩
          | cons argument rest =>
              cases argument with
              | value text => exact absurd rfl (first text rest)
              | separator | option | cluster | unknown => exact ⟨_, rfl⟩

theorem ofRest_schemaOptions {schemas : List Text} (values : ∀ schema ∈ schemas, IsValue schema) :
    ofRest given (schemaOptions schemas ++ arguments)
      = ofRest { given with schemas := given.schemas ++ schemas.map Path.ofText } arguments := by
  induction schemas generalizing given with
  | nil => simp [schemaOptions]
  | cons schema schemas ih =>
      obtain ⟨isValue, values⟩ := List.forall_mem_cons.mp values
      calc ofRest given (schemaOptions (schema :: schemas) ++ arguments)
        _ = ofRest (given.setValue .schema schema) (schemaOptions schemas ++ arguments) :=
            ofRest_value rfl isValue
        _ = _ := by simp [ih values, Given.setValue]

theorem ofRest_schemaOptions_refused {schemas : List Text}
    (noValue : ¬ ∀ schema ∈ schemas, IsValue schema) :
    ∃ e, ofRest given (schemaOptions schemas ++ arguments) = .refused e := by
  induction schemas generalizing given with
  | nil => exact absurd nofun noValue
  | cons schema schemas ih =>
      show ∃ e, ofRest given (Flag.schema.long :: schema :: (schemaOptions schemas ++ arguments)) = _
      by_cases isValue : IsValue schema
      · rw [ofRest_value rfl isValue]
        exact ih fun values => noValue (List.forall_mem_cons.mpr ⟨isValue, values⟩)
      · exact ofRest_noValue rfl isValue

theorem ofRest_end {input output : Path} (schemas : List Path) (check : Bool) :
    ofRest ⟨some input, some output, schemas, false, []⟩ (if check then [Flag.check.long] else [])
      = .run ⟨input, output, schemas, check⟩ := by
  cases check <;> rfl

/-- **The plain command line**: it is a request to run on just these paths if each of them may
stand as a value, and refused if not; `--check` at its end is noticed and makes no other
difference. -/
theorem ofArguments_invocation (input output : Text) (schemas : List Text) :
    (∀ check, ofArguments (invocation input output schemas check)
        = .run ⟨Path.ofText input, Path.ofText output, schemas.map Path.ofText, check⟩)
      ∨ ∀ check, ∃ e, ofArguments (invocation input output schemas check) = .refused e := by
  by_cases first : IsValue input
  · by_cases second : IsValue output
    · have paths : ∀ rest, ofRest .empty (Flag.input.long :: input :: Flag.output.long :: output :: rest)
          = ofRest ⟨some (Path.ofText input), some (Path.ofText output), [], false, []⟩ rest := by
        intro rest
        rw [ofRest_value rfl first, ofRest_value rfl second]
        rfl
      by_cases values : ∀ schema ∈ schemas, IsValue schema
      · left
        intro check
        refine (paths _).trans ?_
        rw [ofRest_schemaOptions values]
        exact ofRest_end _ check
      · right
        intro check
        obtain ⟨e, refused⟩ := ofRest_schemaOptions_refused values
        exact ⟨e, (paths _).trans refused⟩
    · right
      intro check
      have takes : Flag.output.takesValue = true := rfl
      obtain ⟨e, refused⟩ := ofRest_noValue takes second
      exact ⟨e, (ofRest_value rfl first).trans refused⟩
  · exact .inr fun check => ofRest_noValue rfl first

end Request

end EnumExtract
