import Mathlib
import TemplateLint.Proofs.Files.Loading
import TemplateLint.Run

/-!
# Runs that fail

A run goes through its stages in one order, and what a failure leaves behind says how far it got. Bad
settings come first and are found without looking at the disk. What is on the disk comes next, before
any template is handed to the tokenizer. A syntax error comes before the first byte of the report. So
the only failure that leaves bytes behind is the sink's own, and then these are the front of the report
that a sink without a limit would have taken. Which unreadable template is reported is open, but whether
there is one is not, so nothing else about a run is open either (`run_cases`).

The report is written line by line, and every line can be the one at which the sink breaks. That the
lines taken together behave like one text is `Sink.write_limited`; its invariant is that the bytes
taken so far fit in the sink.
-/

namespace TemplateLint

/-! ### Settings -/

/-- What is wrong with a ruleset and a version of the language. -/
def rulesetComplaints (name : String) (version : UInt8) : List SettingError :=
  if name = "official" then
    if 1 ≤ version ∧ version ≤ 3 then [] else [.unsupportedVersion "official" version "1-3"]
  else if name = "whitespace" then
    if version = 0 then [.unsupportedVersion "whitespace" version "1+"] else []
  else [.unknownRuleset name ["official", "whitespace"]]

/-- Everything that is wrong with the names in settings: the severity, the display mode, the ruleset or
its version, the reporter. -/
def Settings.complaints (settings : Settings) : List SettingError :=
  (if settings.severity ∈ ["ignore", "info", "warning", "error"] then []
    else [.unknownSeverity settings.severity]) ++
  ((if settings.display ∈ ["all", "blocking"] then []
    else [.unknownDisplayMode settings.display]) ++
  (rulesetComplaints settings.ruleset settings.languageVersion ++
  (if settings.reporter ∈ ["checkstyle", "console", "emacs", "github", "json"] then []
    else [.unknownReporter settings.reporter ["checkstyle", "console", "emacs", "github", "json"]])))

/-- A look-up fails with the one complaint there is, and succeeds if there is none. -/
def Complains {α : Type} (result : Except SettingError α) (complaints : List SettingError) : Prop :=
  match result with
  | .ok _ => complaints = []
  | .error e => complaints = [e]

/-- Look-ups that are made one after the other fail with the first complaint. -/
theorem Complains.bind_eq_error_iff {α β : Type} {result : Except SettingError α}
    {complaints more : List SettingError} {next : α → Except SettingError β} {e : SettingError}
    (h : Complains result complaints)
    (hnext : ∀ a, result = .ok a → (next a = .error e ↔ more.head? = some e)) :
    (result >>= next) = .error e ↔ (complaints ++ more).head? = some e := by
  cases result with
  | error first =>
    have hfirst : complaints = [first] := h
    rw [hfirst]
    show Except.error first = .error e ↔ some first = some e
    simp
  | ok a =>
    have hnone : complaints = [] := h
    rw [hnone]
    exact hnext a rfl

theorem complains_severity (word : String) :
    Complains (Threshold.named word)
      (if word ∈ ["ignore", "info", "warning", "error"] then [] else [.unknownSeverity word]) := by
  unfold Threshold.named
  cases hword : Severity.ofName? word with
  | some lowest =>
    have hname : lowest.name = word := Severity.name_of_ofName? hword
    rw [← hname]
    cases lowest <;> rfl
  | none =>
    rw [if_neg]
    · rfl
    · intro hmem
      have hnamed : ∃ s : Severity, s.name = word := by
        simp only [List.mem_cons, List.not_mem_nil, or_false] at hmem
        rcases hmem with rfl | rfl | rfl | rfl
        exacts [⟨.ignore, rfl⟩, ⟨.info, rfl⟩, ⟨.warning, rfl⟩, ⟨.error, rfl⟩]
      obtain ⟨s, rfl⟩ := hnamed
      rw [Severity.ofName?_name] at hword
      cases hword

theorem complains_display (word : String) :
    Complains (DisplayMode.named word)
      (if word ∈ ["all", "blocking"] then [] else [.unknownDisplayMode word]) := by
  unfold DisplayMode.named
  split
  · rfl
  · rfl
  · next hall hblocking =>
    have hother : word ∉ ["all", "blocking"] := by
      intro hmem
      simp only [List.mem_cons, List.not_mem_nil, or_false] at hmem
      exact hmem.elim hall hblocking
    rw [if_neg hother]
    rfl

theorem complains_ruleset (name : String) (version : UInt8) :
    Complains (RulesetRegistry.stock.resolve name version) (rulesetComplaints name version) := by
  unfold rulesetComplaints
  by_cases hofficial : name = "official"
  · subst hofficial
    show Complains (Ruleset.official version) _
    unfold Ruleset.official
    split <;> rfl
  · by_cases hwhitespace : name = "whitespace"
    · subst hwhitespace
      show Complains (Ruleset.whitespace version) _
      unfold Ruleset.whitespace
      split <;> rfl
    · have hnone : RulesetRegistry.stock.find? name = none := by
        show List.lookup name [("official", Ruleset.official), ("whitespace", Ruleset.whitespace)] = none
        simp [List.lookup, beq_eq_false_iff_ne.2 hofficial, beq_eq_false_iff_ne.2 hwhitespace]
      rw [if_neg hofficial, if_neg hwhitespace, RulesetRegistry.resolve, hnone]
      rfl

theorem complains_reporter (color : Bool) (name : String) :
    Complains ((ReporterRegistry.stock color).resolve name)
      (if name ∈ ["checkstyle", "console", "emacs", "github", "json"] then []
        else [.unknownReporter name ["checkstyle", "console", "emacs", "github", "json"]]) := by
  by_cases hmem : name ∈ ["checkstyle", "console", "emacs", "github", "json"]
  · rw [if_pos hmem]
    simp only [List.mem_cons, List.not_mem_nil, or_false] at hmem
    rcases hmem with rfl | rfl | rfl | rfl | rfl <;> rfl
  · have hnone : (ReporterRegistry.stock color).find? name = none := by
      show List.lookup name [("checkstyle", Reporter.checkstyle), ("console", .console color),
        ("emacs", .emacs), ("github", .github), ("json", .json)] = none
      simp only [List.mem_cons, List.not_mem_nil, or_false, not_or] at hmem
      obtain ⟨h₁, h₂, h₃, h₄, h₅⟩ := hmem
      simp [List.lookup, beq_eq_false_iff_ne.2 h₁, beq_eq_false_iff_ne.2 h₂,
        beq_eq_false_iff_ne.2 h₃, beq_eq_false_iff_ne.2 h₄, beq_eq_false_iff_ne.2 h₅]
    rw [if_neg hmem, ReporterRegistry.resolve, hnone]
    rfl

theorem prepare_eq_error_iff (settings : Settings) (color : Bool) (e : SettingError) :
    settings.prepare RulesetRegistry.stock (ReporterRegistry.stock color) = .error e ↔
      settings.complaints.head? = some e := by
  refine (complains_severity settings.severity).bind_eq_error_iff fun threshold _ => ?_
  refine (complains_display settings.display).bind_eq_error_iff fun display _ => ?_
  refine (complains_ruleset settings.ruleset settings.languageVersion).bind_eq_error_iff
    fun ruleset _ => ?_
  rw [← List.append_nil (ite _ _ _)]
  refine (complains_reporter color settings.reporter).bind_eq_error_iff fun reporter _ => ?_
  simp [pure, Except.pure]

/-! ### Sinks -/

theorem Sink.write_unlimited (taken : ByteArray) (lines : List String) :
    Sink.write {} taken lines = ⟨taken ++ (Report.unlines lines).toUTF8, true⟩ := by
  induction lines generalizing taken with
  | nil => simp [Sink.write, Report.unlines]
  | cons line rest ih =>
    have hstep : Sink.write {} taken (line :: rest) =
        Sink.write {} (taken ++ (line ++ "\n").toUTF8) rest := rfl
    rw [hstep, ih, Report.unlines_cons]
    simp [ByteArray.append_assoc]

theorem extract_of_size_le {bytes : ByteArray} {n : Nat} (h : bytes.size ≤ n) :
    bytes.extract 0 n = bytes := by
  have hmax := ByteArray.extract_zero_max_size (a := bytes) (i := n)
  rwa [Nat.max_eq_left h] at hmax

theorem Sink.write_cons (n : Nat) (taken : ByteArray) (line : String) (rest : List String) :
    Sink.write ⟨some n⟩ taken (line :: rest) =
      if (line ++ "\n").toUTF8.size ≤ n - taken.size then
        Sink.write ⟨some n⟩ (taken ++ (line ++ "\n").toUTF8.extract 0 (n - taken.size)) rest
      else ⟨taken ++ (line ++ "\n").toUTF8.extract 0 (n - taken.size), false⟩ := by
  simp only [Sink.write, Sink.behind, Sink.takes, Sink.accepted, Option.map_some, decide_eq_true_eq]
  rfl

/-- Lines are written as if they were one text: the sink takes the bytes of that text up to its limit,
and breaks just if there are more. -/
theorem Sink.write_limited {n : Nat} {taken : ByteArray} (htaken : taken.size ≤ n)
    (lines : List String) :
    Sink.write ⟨some n⟩ taken lines =
      ⟨(taken ++ (Report.unlines lines).toUTF8).extract 0 n,
        decide ((taken ++ (Report.unlines lines).toUTF8).size ≤ n)⟩ := by
  induction lines generalizing taken with
  | nil =>
    have hnil : taken ++ (Report.unlines []).toUTF8 = taken := ByteArray.append_empty
    rw [hnil, extract_of_size_le htaken, decide_eq_true htaken]
    rfl
  | cons line rest ih =>
    have hall : taken ++ (Report.unlines (line :: rest)).toUTF8 =
        taken ++ (line ++ "\n").toUTF8 ++ (Report.unlines rest).toUTF8 := by
      rw [Report.unlines_cons, ByteArray.append_assoc]
      simp
    rw [Sink.write_cons, hall]
    by_cases hfits : (line ++ "\n").toUTF8.size ≤ n - taken.size
    · have hroom : (taken ++ (line ++ "\n").toUTF8).size ≤ n := by
        rw [ByteArray.size_append]
        omega
      rw [if_pos hfits, extract_of_size_le hfits, ih hroom]
    · have hmore : ¬ (taken ++ (line ++ "\n").toUTF8 ++ (Report.unlines rest).toUTF8).size ≤ n := by
        simp only [ByteArray.size_append]
        omega
      have hrest : n - (taken ++ (line ++ "\n").toUTF8).size = 0 := by
        rw [ByteArray.size_append]
        omega
      rw [if_neg hfits, decide_eq_false hmore, ByteArray.extract_append, hrest, ByteArray.extract_append,
        extract_of_size_le htaken]
      simp

/-! ### Stages -/

/-- The failures that come from the settings or from the disk. -/
def Failure.IsEarly : Failure → Prop
  | .setting _ | .unreadable _ _ => True
  | .syntaxError _ | .unwritable _ => False

/-- Something that fails in no other way than early. -/
def FailsEarly {α : Type} (result : Except Failure α) : Prop :=
  ∀ failure, result = .error failure → failure.IsEarly

namespace FailsEarly

variable {α β : Type}

theorem ok (a : α) : FailsEarly (.ok a) := by
  intro failure h
  cases h

theorem error {failure : Failure} (h : failure.IsEarly) : FailsEarly (.error failure : Except _ α) := by
  intro other hother
  cases hother
  exact h

theorem bind {result : Except Failure α} {next : α → Except Failure β} (h : FailsEarly result)
    (hnext : ∀ a, FailsEarly (next a)) : FailsEarly (result >>= next) := by
  cases result with
  | error failure => exact error (h failure rfl)
  | ok a => exact hnext a

theorem mapM {f : α → Except Failure β} (h : ∀ a, FailsEarly (f a)) (items : List α) :
    FailsEarly (items.mapM f) := by
  induction items with
  | nil => exact ok []
  | cons a items ih =>
    rw [List.mapM_cons]
    exact (h a).bind fun b => ih.bind fun bs => ok (b :: bs)

theorem foldlM {f : β → α → Except Failure β} (h : ∀ b a, FailsEarly (f b a)) (start : β)
    (items : List α) : FailsEarly (items.foldlM f start) := by
  induction items generalizing start with
  | nil => exact ok start
  | cons a items ih =>
    rw [List.foldlM_cons]
    exact (h start a).bind fun b => ih b

theorem unreadable (path : RawPath) (result : Except FileError α) :
    FailsEarly (result.mapError (Failure.unreadable path)) := by
  cases result with
  | error e => exact error trivial
  | ok a => exact ok a

end FailsEarly

theorem failsEarly_withExtension (fs : FileSystem) (root : RawPath) (ext : String) :
    FailsEarly (Discovery.withExtension fs root ext) := by
  simp only [Discovery.withExtension]
  split
  · exact .error trivial
  · exact .ok _

theorem failsEarly_filesFor (fs : FileSystem) (requested : String)
    (exclude extensions : List String) :
    FailsEarly (Discovery.filesFor fs requested exclude extensions) := by
  unfold Discovery.filesFor
  split
  · exact (FailsEarly.unreadable requested _).bind fun real => .ok _
  · split
    · refine (FailsEarly.unreadable requested _).bind fun root => ?_
      exact (FailsEarly.mapM (failsEarly_withExtension fs root) extensions).bind fun found => .ok _
    · exact .ok []

theorem failsEarly_loadSources (fs : FileSystem) (race : Nat) (groups : List PathGroup) :
    FailsEarly (loadSources fs race groups) := by
  intro failure hfailure
  obtain ⟨file, -, e, -, rfl⟩ := isReadFailure_of_loadSources hfailure
  trivial

/-- Finding and reading the templates fails for reasons of the disk or of the patterns only. -/
theorem failsEarly_sources (fs : FileSystem) (race : Nat) (settings : Settings) :
    FailsEarly (Plan.sources fs race settings) := by
  have hdiscover : FailsEarly
      (discover fs settings.paths settings.exclude settings.extensions) := by
    apply FailsEarly.foldlM
    intro groups requested
    exact (failsEarly_filesFor fs requested _ _).bind fun files => .ok _
  exact hdiscover.bind fun groups => failsEarly_loadSources fs race groups

theorem sources_of_race {fs : FileSystem} {race : Nat} {settings : Settings} {sources : List Source}
    (h : Plan.sources fs race settings = .ok sources) (race' : Nat) :
    Plan.sources fs race' settings = .ok sources := by
  rw [Plan.sources] at h ⊢
  cases hfound : discover fs settings.paths settings.exclude settings.extensions with
  | error failure =>
    rw [hfound] at h
    cases h
  | ok groups =>
    rw [hfound] at h
    exact loadSources_of_race h race'

theorem run_of_bad_setting {settings : Settings} {color : Bool} {e : SettingError}
    (h : settings.prepare RulesetRegistry.stock (ReporterRegistry.stock color) = .error e)
    (fs : FileSystem) (race : Nat) (sink : Sink) :
    run fs race color settings sink = { result := .error (.setting e) } := by
  simp only [run, h]

/-- How a run can end. Only its report depends on the sink, and only an early failure on the race. -/
theorem run_cases (fs : FileSystem) (color : Bool) (settings : Settings) :
    (∀ race, ∃ failure : Failure, failure.IsEarly ∧
      ∀ sink, run fs race color settings sink = { result := .error failure }) ∨
    (∃ tokenized e, ∀ race sink, run fs race color settings sink =
      { tokenized, result := .error (.syntaxError e) }) ∨
    ∃ plan tokenized violations,
      settings.prepare RulesetRegistry.stock (ReporterRegistry.stock color) = .ok plan ∧
      ∀ race sink, run fs race color settings sink = plan.report sink tokenized violations := by
  cases hplan : settings.prepare RulesetRegistry.stock (ReporterRegistry.stock color) with
  | error e => exact .inl fun race => ⟨.setting e, trivial, run_of_bad_setting hplan fs race⟩
  | ok plan =>
    cases hfirst : Plan.sources fs 0 settings with
    | error _ =>
      refine .inl fun race => ?_
      cases hsources : Plan.sources fs race settings with
      | ok sources => cases hfirst.symm.trans (sources_of_race hsources 0)
      | error failure =>
        refine ⟨failure, failsEarly_sources fs race settings failure hsources, fun sink => ?_⟩
        simp only [run, hplan, Plan.execute, hsources]
    | ok sources =>
      have hrun : ∀ race sink, run fs race color settings sink = plan.lintAndReport tokenize sink sources := by
        intro race sink
        simp only [run, hplan, Plan.execute, sources_of_race hfirst race]
      rcases hsession : Linter.lintAll ⟨tokenize, plan.ruleset, plan.syntaxErrors⟩ sources with
        ⟨tokenized, e | violations⟩
      · refine .inr (.inl ⟨tokenized, e, fun race sink => ?_⟩)
        simp only [hrun, Plan.lintAndReport, hsession]
      · refine .inr (.inr ⟨plan, tokenized, violations, rfl, fun race sink => ?_⟩)
        simp only [hrun, Plan.lintAndReport, hsession]

/-! ### Whole runs -/

theorem Plan.report_unlimited (plan : Plan) (tokenized : List Source) (violations : List Violation) :
    plan.report {} tokenized violations =
      { tokenized
        written := (plan.reporter.render (plan.outcome violations).displayed).toUTF8
        result := .ok (plan.outcome violations) } := by
  simp only [Plan.report, Sink.write_unlimited, ByteArray.empty_append]
  rfl

theorem Plan.report_limited (plan : Plan) (n : Nat) (tokenized : List Source)
    (violations : List Violation) :
    let report := (plan.reporter.render (plan.outcome violations).displayed).toUTF8
    plan.report ⟨some n⟩ tokenized violations =
      { tokenized
        written := report.extract 0 n
        result := if report.size ≤ n then .ok (plan.outcome violations)
          else .error (.unwritable Sink.reason) } := by
  have hempty : ByteArray.empty.size ≤ n := Nat.zero_le n
  simp only [Plan.report, Sink.write_limited hempty, ByteArray.empty_append, decide_eq_true_eq]
  rfl

/-- What a run with room for some bytes leaves, beside the same run with room for all of them, if both
get as far as the report. -/
structure Run.Reports (plan : Plan) (violations : List Violation) (n : Nat)
    (limited unlimited : Run) : Prop where
  result : unlimited.result = .ok (plan.outcome violations)
  written : unlimited.written =
    (plan.reporter.render (plan.outcome violations).displayed).toUTF8
  fits : unlimited.written.size ≤ n →
    limited.result = .ok (plan.outcome violations) ∧ limited.written = unlimited.written
  breaks : n < unlimited.written.size →
    limited.result = .error (.unwritable Sink.reason) ∧
      limited.written = unlimited.written.extract 0 n

theorem Plan.reports (plan : Plan) (n : Nat) (tokenized : List Source) (violations : List Violation) :
    Run.Reports plan violations n (plan.report ⟨some n⟩ tokenized violations)
      (plan.report {} tokenized violations) := by
  rw [plan.report_limited, plan.report_unlimited]
  refine ⟨rfl, rfl, fun hfits => ⟨if_pos hfits, extract_of_size_le hfits⟩, fun hmore => ⟨?_, rfl⟩⟩
  exact if_neg (Nat.not_le.2 hmore)

/-- **A run that fails leaves nothing but the front of its report.** The first bad setting stops a run
in the same way on every disk. Settings and the disk stop it before any template is tokenized, and a
syntax error stops it before anything is written. Otherwise it is only the sink that can fail: if the
report fits, the run is the same as with a sink that has no limit, and if not, the sink has taken as much
of that report as it can. None of this depends on which files are read first. -/
theorem run_atomic (color : Bool) (settings : Settings) :
    (∀ e, settings.prepare RulesetRegistry.stock (ReporterRegistry.stock color) = .error e ↔
      settings.complaints.head? = some e) ∧
    (∀ e, settings.prepare RulesetRegistry.stock (ReporterRegistry.stock color) = .error e →
      ∀ fs race sink, run fs race color settings sink = { result := .error (.setting e) }) ∧
    ∀ fs race race' n,
      let limited := run fs race color settings ⟨some n⟩
      let unlimited := run fs race' color settings {}
      match limited.result with
      | .error (.setting _) | .error (.unreadable _ _) =>
        limited.tokenized = [] ∧ limited.written = .empty
      | .error (.syntaxError _) => limited.written = .empty
      | .error (.unwritable _) | .ok _ =>
        ∃ plan violations,
          settings.prepare RulesetRegistry.stock (ReporterRegistry.stock color) = .ok plan ∧
            Run.Reports plan violations n limited unlimited := by
  refine ⟨prepare_eq_error_iff settings color, fun e => run_of_bad_setting, ?_⟩
  intro fs race race' n limited unlimited
  rcases run_cases fs color settings with
    hends | ⟨tokenized, e, hrun⟩ | ⟨plan, tokenized, violations, hplan, hrun⟩
  · obtain ⟨failure, hearly, hrun⟩ := hends race
    have hlimited : limited = { result := .error failure } := hrun _
    rw [hlimited]
    cases failure with
    | setting e => exact ⟨rfl, rfl⟩
    | unreadable path e => exact ⟨rfl, rfl⟩
    | syntaxError e => exact hearly.elim
    | unwritable reason => exact hearly.elim
  · have hlimited : limited = { tokenized, result := .error (.syntaxError e) } := hrun _ _
    rw [hlimited]
  · have hreports : Run.Reports plan violations n limited unlimited := by
      have hboth := plan.reports n tokenized violations
      rwa [← hrun race, ← hrun race'] at hboth
    by_cases hfits : unlimited.written.size ≤ n
    · rw [(hreports.fits hfits).1]
      exact ⟨plan, violations, hplan, hreports⟩
    · rw [(hreports.breaks (Nat.not_le.1 hfits)).1]
      exact ⟨plan, violations, hplan, hreports⟩

/-- A report of two lines to a sink that has room for five bytes. -/
theorem run_atomic_five_bytes :
    let fs : FileSystem := { entries := [(["a"], .file "\x7b\x7ba\x7d\x7d".toUTF8)] }
    let settings : Settings := { paths := ["a"], reporter := "emacs" }
    5 < (run fs 0 false settings {}).written.size ∧
      (run fs 0 false settings ⟨some 5⟩).result = .error (.unwritable "broken pipe") ∧
      (run fs 0 false settings ⟨some 5⟩).written = (run fs 0 false settings {}).written.extract 0 5 := by
  intro fs settings
  have hsources : Plan.sources fs 0 settings = .ok [⟨"\x7b\x7ba\x7d\x7d", "/a", "a"⟩] := by cbv
  have hsize : (run fs 0 false settings {}).written.size = 109 := by
    simp only [run, Plan.execute, hsources]
    decide +kernel
  have hresult : (run fs 0 false settings ⟨some 5⟩).result = .error (.unwritable "broken pipe") := by
    simp only [run, Plan.execute, hsources]
    decide +kernel
  have hcases := (run_atomic false settings).2.2 fs 0 0 5
  simp only [hresult] at hcases
  obtain ⟨plan, violations, -, hreports⟩ := hcases
  have hmore : 5 < (run fs 0 false settings {}).written.size := by omega
  exact ⟨hmore, hreports.breaks hmore⟩

end TemplateLint
