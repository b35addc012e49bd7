import TemplateLint.Program
import TemplateLint.Proofs.Run.Atomicity

/-!
# What a run decides

The display mode and the reporter say how findings are shown. They are looked up when the plan is made
and used when the report is written, and nothing between the two asks for them: `Plan.result_execute`
gives the result of a run from its findings, and `Plan.findings` is about the other parts of the plan
only. So two runs that differ in how they show what they find decide alike. The decision is made from
all findings, by the severity that the settings name, and the program hands it on as its exit code.

Two runs need not read the templates in the same order. If some cannot be read, each of the runs may name
another one of them; that is all that the race between the files can change (`findings_races`). A run that
fails has nothing written when its sink has no limit (`written_of_error`), so there is nothing on the
output of the program either.
-/

namespace TemplateLint

/-! ### From settings to findings -/

theorem exists_of_bind_eq_ok {ε α β : Type} {result : Except ε α} {next : α → Except ε β} {b : β}
    (h : (result >>= next) = .ok b) : ∃ a, result = .ok a ∧ next a = .ok b := by
  cases result with
  | error e => cases h
  | ok a => exact ⟨a, rfl, h⟩

theorem Threshold.exists_of_named {word : String} {threshold : Threshold}
    (h : named word = .ok threshold) :
    ∃ lowest, Severity.ofName? word = some lowest ∧ threshold = below lowest := by
  unfold named at h
  split at h
  · next lowest hlowest => exact ⟨lowest, hlowest, (Except.ok.inj h).symm⟩
  · cases h

theorem DisplayMode.of_named {word : String} {mode : DisplayMode} (h : named word = .ok mode) :
    word = "all" ∧ mode = .all ∨ word = "blocking" ∧ mode = .blocking := by
  unfold named at h
  split at h
  · exact .inl ⟨rfl, (Except.ok.inj h).symm⟩
  · exact .inr ⟨rfl, (Except.ok.inj h).symm⟩
  · cases h

/-- Where the parts of a plan come from. -/
structure Settings.Plans (settings : Settings) (color : Bool) (plan : Plan) : Prop where
  threshold : Threshold.named settings.severity = .ok plan.threshold
  display : DisplayMode.named settings.display = .ok plan.display
  ruleset : RulesetRegistry.stock.resolve settings.ruleset settings.languageVersion = .ok plan.ruleset
  reporter : (ReporterRegistry.stock color).resolve settings.reporter = .ok plan.reporter
  syntaxErrors : SyntaxErrors.ofFlag settings.throwSyntaxErrors = plan.syntaxErrors

theorem Settings.plans_of_prepare {settings : Settings} {color : Bool} {plan : Plan}
    (h : settings.prepare RulesetRegistry.stock (ReporterRegistry.stock color) = .ok plan) :
    settings.Plans color plan := by
  obtain ⟨threshold, hthreshold, h⟩ := exists_of_bind_eq_ok h
  obtain ⟨display, hdisplay, h⟩ := exists_of_bind_eq_ok h
  obtain ⟨ruleset, hruleset, h⟩ := exists_of_bind_eq_ok h
  obtain ⟨reporter, hreporter, h⟩ := exists_of_bind_eq_ok h
  cases h
  exact ⟨hthreshold, hdisplay, hruleset, hreporter, rfl⟩

namespace Plan

/-- What is found in the templates, before any of it is shown. -/
def findings (plan : Plan) (fs : FileSystem) (race : Nat) (settings : Settings) (tokenizer : Tokenizer) :
    Except Failure (List Violation) := do
  let sources ← sources fs race settings
  (Linter.lintAll ⟨tokenizer, plan.ruleset, plan.syntaxErrors⟩ sources).result.mapError .syntaxError

theorem result_lintAndReport (plan : Plan) (tokenizer : Tokenizer) (sources : List Source) :
    (plan.lintAndReport tokenizer {} sources).result =
      ((Linter.lintAll ⟨tokenizer, plan.ruleset, plan.syntaxErrors⟩ sources).result.mapError
        .syntaxError).map plan.outcome := by
  rcases hsession : Linter.lintAll ⟨tokenizer, plan.ruleset, plan.syntaxErrors⟩ sources with
    ⟨tokenized, e | violations⟩
  · simp only [lintAndReport, hsession]
    rfl
  · simp only [lintAndReport, hsession, report_unlimited]
    rfl

theorem result_execute (plan : Plan) (fs : FileSystem) (race : Nat) (settings : Settings)
    (tokenizer : Tokenizer) : (plan.execute fs race settings tokenizer {}).result =
      (plan.findings fs race settings tokenizer).map plan.outcome := by
  cases hsources : sources fs race settings with
  | error failure =>
    simp only [execute, findings, hsources]
    rfl
  | ok sources =>
    simp only [execute, findings, hsources]
    exact plan.result_lintAndReport tokenizer sources

/-- The race between the files can only change which unreadable file is named. -/
theorem findings_races (plan : Plan) (fs : FileSystem) (settings : Settings) (tokenizer : Tokenizer)
    (race race' : Nat) :
    plan.findings fs race settings tokenizer = plan.findings fs race' settings tokenizer ∨
      ∃ groups, discover fs settings.paths settings.exclude settings.extensions = .ok groups ∧
        ∀ race, ∃ failure, plan.findings fs race settings tokenizer = .error failure ∧
          IsReadFailure fs groups failure := by
  cases hfound : discover fs settings.paths settings.exclude settings.extensions with
  | error failure =>
    left
    rw [findings, findings, sources, sources, hfound]
    rfl
  | ok groups =>
    have hsources (race : Nat) : sources fs race settings = loadSources fs race groups := by
      rw [sources, hfound]
      rfl
    cases hfirst : loadSources fs race groups with
    | ok loaded =>
      left
      rw [findings, findings, hsources, hsources, loadSources_of_race hfirst race', hfirst]
    | error _ =>
      refine .inr ⟨groups, rfl, fun other => ?_⟩
      cases hother : loadSources fs other groups with
      | ok loaded => cases hfirst.symm.trans (loadSources_of_race hother race)
      | error failure =>
        refine ⟨failure, ?_, isReadFailure_of_loadSources hother⟩
        rw [findings, hsources, hother]
        rfl

/-- The findings that block, and what they decide, said with the lowest blocking severity. -/
theorem outcome_eq (plan : Plan) {lowest : Severity} (h : plan.threshold = Threshold.below lowest)
    (violations : List Violation) :
    let blocking := violations.filter fun v => lowest ≤ v.severity
    plan.outcome violations =
      ⟨violations, match plan.display with | .all => violations | .blocking => blocking,
        if blocking = [] then 0 else 1⟩ := by
  intro blocking
  have hblocks : plan.threshold.blocks = fun v => decide (lowest ≤ v.severity) := by
    funext v
    rw [h, ← Bool.coe_iff_coe, Threshold.blocks_below_iff, decide_eq_true_iff]
  have hcode : plan.threshold.exitCode violations = if blocking = [] then 0 else 1 := by
    rw [Threshold.exitCode, hblocks]
    by_cases hnone : blocking = []
    · rw [if_pos hnone, if_neg]
      simpa [blocking, List.filter_eq_nil_iff] using hnone
    · rw [if_neg hnone, if_pos]
      simpa [blocking, List.filter_eq_nil_iff] using hnone
  rw [outcome, hcode]
  cases plan.display with
  | all => rfl
  | blocking => rw [Threshold.displayed, hblocks]

end Plan

theorem result_run {settings : Settings} {color : Bool} {plan : Plan}
    (h : settings.prepare RulesetRegistry.stock (ReporterRegistry.stock color) = .ok plan)
    (fs : FileSystem) (race : Nat) :
    (run fs race color settings {}).result =
      (plan.findings fs race settings tokenize).map plan.outcome := by
  simp only [run, h]
  exact plan.result_execute fs race settings tokenize

theorem exists_plan_of_run {fs : FileSystem} {race : Nat} {color : Bool} {settings : Settings}
    {outcome : Outcome} (h : (run fs race color settings {}).result = .ok outcome) :
    ∃ plan violations, settings.Plans color plan ∧ outcome = plan.outcome violations := by
  cases hplan : settings.prepare RulesetRegistry.stock (ReporterRegistry.stock color) with
  | error e =>
    rw [run_of_bad_setting hplan] at h
    cases h
  | ok plan =>
    rw [result_run hplan] at h
    cases hfound : plan.findings fs race settings tokenize with
    | error failure =>
      rw [hfound] at h
      cases h
    | ok violations =>
      rw [hfound] at h
      exact ⟨plan, violations, Settings.plans_of_prepare hplan, (Except.ok.inj h).symm⟩

/-- A run that fails with a sink without a limit has written nothing. -/
theorem written_of_error {fs : FileSystem} {race : Nat} {color : Bool} {settings : Settings}
    {failure : Failure} (h : (run fs race color settings {}).result = .error failure) :
    (run fs race color settings {}).written = .empty := by
  rcases run_cases fs color settings with hends | ⟨tokenized, e, hrun⟩ | ⟨plan, tokenized, violations, -, hrun⟩
  · obtain ⟨_, -, hrun⟩ := hends race
    rw [hrun]
  · rw [hrun]
  · rw [hrun, plan.report_unlimited] at h
    cases h

/-! ### The decision -/

/-- Settings that ask for the same work and may differ in how the findings are shown. -/
def Settings.SameWork (a b : Settings) : Prop :=
  ∃ display reporter, b = { a with display := display, reporter := reporter }

/-- What a run found and what it decided, or why it ended. -/
def Run.verdict (r : Run) : Except Failure (List Violation × Nat) :=
  r.result.map fun outcome => (outcome.violations, outcome.exitCode)

theorem verdict_run {settings : Settings} {color : Bool} {plan : Plan}
    (h : settings.prepare RulesetRegistry.stock (ReporterRegistry.stock color) = .ok plan)
    (fs : FileSystem) (race : Nat) : (run fs race color settings {}).verdict =
      (plan.findings fs race settings tokenize).map fun violations =>
        (violations, plan.threshold.exitCode violations) := by
  rw [Run.verdict, result_run h]
  cases plan.findings fs race settings tokenize with
  | error failure => rfl
  | ok violations => rfl

theorem verdict_of_sameWork {a b : Settings} {color : Bool} {plan other : Plan}
    (hab : a.SameWork b)
    (ha : a.prepare RulesetRegistry.stock (ReporterRegistry.stock color) = .ok plan)
    (hb : b.prepare RulesetRegistry.stock (ReporterRegistry.stock color) = .ok other)
    (fs : FileSystem) (race : Nat) :
    (run fs race color a {}).verdict = (run fs race color b {}).verdict := by
  obtain ⟨display, reporter, rfl⟩ := hab
  have hplan := Settings.plans_of_prepare ha
  have hother := Settings.plans_of_prepare hb
  have hthreshold : plan.threshold = other.threshold :=
    Except.ok.inj (hplan.threshold.symm.trans hother.threshold)
  have hruleset : plan.ruleset = other.ruleset :=
    Except.ok.inj (hplan.ruleset.symm.trans hother.ruleset)
  have hsyntax : plan.syntaxErrors = other.syntaxErrors :=
    hplan.syntaxErrors.symm.trans hother.syntaxErrors
  rw [verdict_run ha, verdict_run hb, Plan.findings, Plan.findings, hthreshold, hruleset, hsyntax]
  rfl

/-- Runs of the same settings decide alike, or each of them fails to read a file. -/
theorem verdict_races {settings : Settings} {color : Bool} {plan : Plan}
    (h : settings.prepare RulesetRegistry.stock (ReporterRegistry.stock color) = .ok plan)
    (fs : FileSystem) (race race' : Nat) :
    (run fs race color settings {}).verdict = (run fs race' color settings {}).verdict ∨
      ∃ groups, discover fs settings.paths settings.exclude settings.extensions = .ok groups ∧
        ∀ race, ∃ failure, (run fs race color settings {}).verdict = .error failure ∧
          IsReadFailure fs groups failure := by
  rw [verdict_run h, verdict_run h]
  rcases plan.findings_races fs settings tokenize race race' with hsame | ⟨groups, hgroups, hfails⟩
  · exact .inl (by rw [hsame])
  · refine .inr ⟨groups, hgroups, fun other => ?_⟩
    obtain ⟨failure, hfailure, hread⟩ := hfails other
    refine ⟨failure, ?_, hread⟩
    rw [verdict_run h, hfailure]
    rfl

/-! ### The program -/

/-- Where no project is, only the command line counts. -/
theorem resolve_of_unmarked (parser : ConfigParser) {fs : FileSystem} {overrides : Overrides}
    {directory : RawPath} (hstart : Settings.start fs overrides = directory)
    (h : ∀ place ∈ Path.ancestors directory, ProjectRoot.isMarked fs place = false) :
    Settings.resolve parser fs overrides =
      .ok { Settings.merge overrides {} with projectRoot := directory } := by
  have hroot : ProjectRoot.detect fs directory = directory := by
    rw [ProjectRoot.detect, List.find?_eq_none.2 fun place hplace => by simp [h place hplace]]
    rfl
  have hmem : directory ∈ Path.ancestors directory := by
    rw [Path.ancestors]
    split
    · simp
    · split <;> simp
  have habsent : ∀ name ∈ ConfigFile.names, fs.isPresent (Path.join directory name) = false := by
    intro name hname
    have hany := h directory hmem
    rw [ProjectRoot.isMarked, List.any_eq_false] at hany
    simpa using hany name (List.mem_append_left _ hname)
  have hload : ConfigFile.load parser fs directory = .ok none := by
    have hnone : ConfigFile.candidates.find?
        (fun candidate => fs.isPresent (Path.join directory candidate.1)) = none := by
      rw [List.find?_eq_none]
      intro candidate hcandidate
      rw [habsent candidate.1 (List.mem_map_of_mem hcandidate)]
      decide
    rw [ConfigFile.load, hnone]
  simp only [Settings.resolve, hstart, hroot, hload]
  rfl

section Program

variable {parser : ConfigParser} {fs : FileSystem} {race : Nat} {color : Bool} {args : List String}
  {given : CommandLine.LintArgs} {settings : Settings} (hread : CommandLine.read args = .ok (.lint given))
include hread

theorem answer_of_bad_config {e : SettingError} (h : Settings.resolve parser fs given.toOverrides = .error e) :
    Program.answer parser fs race color args = Program.stopped color .empty e.message := by
  simp only [Program.answer, hread, Program.perform, Program.lint, h]

variable (hsettings : Settings.resolve parser fs given.toOverrides = .ok settings)
include hsettings

theorem answer_of_failure {failure : Failure} (h : (run fs race color settings {}).result = .error failure) :
    Program.answer parser fs race color args =
      Program.stopped color (run fs race color settings {}).written failure.message := by
  simp only [Program.answer, hread, Program.perform, Program.lint, hsettings, h]

theorem answer_of_outcome {outcome : Outcome} (h : (run fs race color settings {}).result = .ok outcome) :
    Program.answer parser fs race color args =
      { exitCode := outcome.exitCode, output := (run fs race color settings {}).written } := by
  simp only [Program.answer, hread, Program.perform, Program.lint, hsettings, h]

end Program

/-- **A run decides by its findings and the named severity.** How findings are shown changes neither the
findings nor the exit code nor the failure; when templates cannot be read, runs in which the files race
differently may each name another one of these. The findings that block are those of the named severity or
a higher one; they are what is displayed if only blocking ones are asked for, and the exit code is one if
there is any, else zero. The program ends with that code, and with two and an empty output if something
stops it. -/
theorem run_decides (parser : ConfigParser) (fs : FileSystem) (color : Bool) :
    (∀ a b plan other, a.SameWork b →
      a.prepare RulesetRegistry.stock (ReporterRegistry.stock color) = .ok plan →
      b.prepare RulesetRegistry.stock (ReporterRegistry.stock color) = .ok other → ∀ race race',
      (run fs race color a {}).verdict = (run fs race color b {}).verdict ∧
        ((run fs race color a {}).verdict = (run fs race' color b {}).verdict ∨
          ∃ groups, discover fs a.paths a.exclude a.extensions = .ok groups ∧ ∃ failure failure',
            (run fs race color a {}).verdict = .error failure ∧ IsReadFailure fs groups failure ∧
              (run fs race' color b {}).verdict = .error failure' ∧ IsReadFailure fs groups failure')) ∧
    (∀ race settings outcome, (run fs race color settings {}).result = .ok outcome →
      ∃ lowest, Severity.ofName? settings.severity = some lowest ∧
        let blocking := outcome.violations.filter fun v => lowest ≤ v.severity
        (settings.display = "all" ∧ outcome.displayed = outcome.violations ∨
          settings.display = "blocking" ∧ outcome.displayed = blocking) ∧
        outcome.exitCode = if blocking = [] then 0 else 1) ∧
    ∀ race args given, CommandLine.read args = .ok (.lint given) →
      let left := Program.answer parser fs race color args
      match Settings.resolve parser fs given.toOverrides with
      | .error _ => left.exitCode = 2 ∧ left.output = .empty
      | .ok settings =>
        match (run fs race color settings {}).result with
        | .error _ => left.exitCode = 2 ∧ left.output = .empty
        | .ok outcome =>
          left.exitCode = outcome.exitCode ∧ left.output = (run fs race color settings {}).written := by
  refine ⟨?_, ?_, ?_⟩
  · intro a b plan other hab ha hb race race'
    have hsame := verdict_of_sameWork hab ha hb fs
    refine ⟨hsame race, ?_⟩
    rw [← hsame race']
    rcases verdict_races ha fs race race' with heq | ⟨groups, hgroups, hfails⟩
    · exact .inl heq
    · obtain ⟨failure, hfailure, hread⟩ := hfails race
      obtain ⟨failure', hfailure', hread'⟩ := hfails race'
      exact .inr ⟨groups, hgroups, failure, failure', hfailure, hread, hfailure', hread'⟩
  · intro race settings outcome hresult
    obtain ⟨plan, violations, hplan, rfl⟩ := exists_plan_of_run hresult
    obtain ⟨lowest, hlowest, hthreshold⟩ := Threshold.exists_of_named hplan.threshold
    refine ⟨lowest, hlowest, ?_⟩
    rw [plan.outcome_eq hthreshold]
    refine ⟨?_, rfl⟩
    rcases DisplayMode.of_named hplan.display with ⟨hword, hmode⟩ | ⟨hword, hmode⟩
    · exact .inl ⟨hword, by rw [hmode]⟩
    · exact .inr ⟨hword, by rw [hmode]⟩
  · intro race args given hread left
    split
    · next e hconfig =>
      have hleft : left = Program.stopped color .empty e.message := answer_of_bad_config hread hconfig
      rw [hleft]
      exact ⟨rfl, rfl⟩
    · next settings hsettings =>
      split
      · next failure hfailure =>
        have hleft : left = Program.stopped color (run fs race color settings {}).written failure.message :=
          answer_of_failure hread hsettings hfailure
        rw [hleft, written_of_error hfailure]
        exact ⟨rfl, rfl⟩
      · next outcome houtcome =>
        have hleft : left =
            { exitCode := outcome.exitCode, output := (run fs race color settings {}).written } :=
          answer_of_outcome hread hsettings houtcome
        rw [hleft]
        exact ⟨rfl, rfl⟩

/-- A template with a warning and no error, under settings that let only errors block. -/
theorem run_decides_on_warning :
    let fs : FileSystem := { entries := [(["a"], .file "\x7b% filter b %\x7d".toUTF8)] }
    let shown : Settings := { projectRoot := "/", paths := ["a"], severity := "error" }
    let hidden : Settings := { shown with display := "blocking", reporter := "json" }
    let warning : Violation := ⟨"a", ⟨1, 3⟩,
      "The \"filter\" tag is not available since version 3; use the \"apply\" tag.", .warning⟩
    (run fs 0 false shown {}).result = .ok ⟨[warning], [warning], 0⟩ ∧
      (run fs 0 false hidden {}).verdict = .ok ([warning], 0) ∧
      (∃ lowest, Severity.ofName? "error" = some lowest ∧
        [warning].filter (fun v => lowest ≤ v.severity) = []) ∧
      (Program.answer .flat fs 0 false ["lint", "--severity", "error", "a"]).exitCode = 0 := by
  intro fs shown hidden warning
  have hsources : Plan.sources fs 0 shown = .ok [⟨"\x7b% filter b %\x7d", "/a", "a"⟩] := by cbv
  have hresult : (run fs 0 false shown {}).result = .ok ⟨[warning], [warning], 0⟩ := by
    simp only [run, Plan.execute, hsources]
    decide +kernel
  obtain ⟨hsame, hdecision, hprogram⟩ := run_decides .flat fs false
  refine ⟨hresult, ?_, ?_, ?_⟩
  · rw [← (hsame shown hidden _ _ ⟨"blocking", "json", rfl⟩ rfl rfl 0 0).1, Run.verdict, hresult]
    rfl
  · obtain ⟨lowest, hlowest, -, hcode⟩ := hdecision 0 shown _ hresult
    refine ⟨lowest, hlowest, ?_⟩
    by_contra hne
    rw [if_neg hne] at hcode
    cases hcode
  · have hread : CommandLine.read ["lint", "--severity", "error", "a"] =
        .ok (.lint { paths := ["a"], severity := some "error" }) := by cbv
    have hsettings : Settings.resolve .flat fs { paths := ["a"], severity := some "error" } = .ok shown := by
      have hstart : Settings.start fs { paths := ["a"], severity := some "error" } = "/" := by cbv
      have hancestors : Path.ancestors "/" = (["/"] : List RawPath) := by cbv
      refine resolve_of_unmarked .flat hstart ?_
      rw [hancestors, List.forall_mem_singleton, ProjectRoot.isMarked, List.any_eq_false]
      intro name hname
      simp only [ConfigFile.names, ConfigFile.candidates, List.map_cons, List.map_nil, List.cons_append,
        List.nil_append, List.mem_cons, List.not_mem_nil, or_false] at hname
      rw [Bool.not_eq_true]
      rcases hname with rfl | rfl | rfl | rfl <;> cbv
    have hleft := hprogram 0 _ _ hread
    have hoverrides : CommandLine.LintArgs.toOverrides { paths := ["a"], severity := some "error" } =
        { paths := ["a"], severity := some "error" } := rfl
    simp only [hoverrides, hsettings, hresult] at hleft
    exact hleft.1

end TemplateLint
