import TemplateLint.Files.Discovery
import TemplateLint.Finding.Threshold
import TemplateLint.Lint
import TemplateLint.Report
import TemplateLint.Settings

/-!
# Runs

A run goes through fixed stages. First a plan is made: every name in the settings is looked up, so a bad
name stops the run before any file is touched. Then the templates are found, read and linted, all of
them before anything is written. Last, the findings to be shown are reported, and the exit code is taken
from all findings.

What is left of a run is what an observer can see: which templates were handed to the tokenizer, which
bytes were written, and how it ended. A stage that fails ends the run with nothing written, except that
a broken sink has taken the front of the report. Only one thing is left open by the file system and the
settings: which of several unreadable templates is the one that is reported.
-/

namespace TemplateLint

/-- Settings with every name looked up. -/
structure Plan where
  threshold : Threshold
  display : DisplayMode
  syntaxErrors : SyntaxErrors
  ruleset : Ruleset
  reporter : Reporter

/-- The plan for settings. The first setting that makes no sense stops it: severity, display, ruleset
with its version, reporter. -/
def Settings.prepare (settings : Settings) (rulesets : RulesetRegistry)
    (reporters : ReporterRegistry) : Except SettingError Plan := do
  let threshold ← Threshold.named settings.severity
  let display ← DisplayMode.named settings.display
  let ruleset ← rulesets.resolve settings.ruleset settings.languageVersion
  let reporter ← reporters.resolve settings.reporter
  return ⟨threshold, display, SyntaxErrors.ofFlag settings.throwSyntaxErrors, ruleset, reporter⟩

/-- What came of a run that was not stopped. -/
structure Outcome where
  /-- Everything that was found. -/
  violations : List Violation
  /-- What the report is about. -/
  displayed : List Violation
  exitCode : Nat
  deriving DecidableEq, Repr, Inhabited

/-- What an observer sees of a run. -/
structure Run where
  /-- The templates that were handed to the tokenizer. -/
  tokenized : List Source := []
  /-- The bytes that the sink took. -/
  written : ByteArray := .empty
  result : Except Failure Outcome

namespace Plan

/-- The templates that settings ask for. -/
def sources (fs : FileSystem) (race : Nat) (settings : Settings) : Except Failure (List Source) := do
  loadSources fs race (← discover fs settings.paths settings.exclude settings.extensions)

/-- What findings lead to. -/
def outcome (plan : Plan) (violations : List Violation) : Outcome :=
  ⟨violations, plan.threshold.displayed plan.display violations,
    plan.threshold.exitCode violations⟩

/-- Reports on the findings in templates what is to be shown. -/
def report (plan : Plan) (sink : Sink) (tokenized : List Source) (violations : List Violation) : Run :=
  let outcome := plan.outcome violations
  let delivery := sink.write .empty (plan.reporter.lines outcome.displayed)
  { tokenized
    written := delivery.taken
    result := if delivery.complete then .ok outcome else .error (.unwritable Sink.reason) }

/-- Lints templates and reports what is to be shown. -/
def lintAndReport (plan : Plan) (tokenizer : Tokenizer) (sink : Sink) (sources : List Source) : Run :=
  let session := Linter.lintAll ⟨tokenizer, plan.ruleset, plan.syntaxErrors⟩ sources
  match session.result with
  | .error error => { tokenized := session.tokenized, result := .error (.syntaxError error) }
  | .ok violations => plan.report sink session.tokenized violations

/-- Carries out a plan. -/
def execute (plan : Plan) (fs : FileSystem) (race : Nat) (settings : Settings)
    (tokenizer : Tokenizer) (sink : Sink) : Run :=
  match sources fs race settings with
  | .error failure => { result := .error failure }
  | .ok sources => plan.lintAndReport tokenizer sink sources

end Plan

/-- A run with the stock rulesets, reporters and tokenizer. -/
def run (fs : FileSystem) (race : Nat) (color : Bool) (settings : Settings) (sink : Sink) : Run :=
  match settings.prepare RulesetRegistry.stock (ReporterRegistry.stock color) with
  | .error error => { result := .error (.setting error) }
  | .ok plan => plan.execute fs race settings tokenize sink

end TemplateLint
