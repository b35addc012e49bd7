import TemplateLint.Settings
import TemplateLint.Text.Digits

/-!
# The options of a lint run

Most options take a value. Those for folders and extensions may be repeated and collect their values;
the others may be given once. Giving one of these twice is an error, so that no value is silently
dropped.

What the options and paths of a command line give is kept in a record of their own, in the order in
which the options are offered. A run asks for overrides, which hold the same settings.
-/

namespace TemplateLint.CommandLine

/-- Why a command line is not carried out. Asking for help or for the version ends the reading of the
command line like a mistake does. -/
inductive UsageError where
  | helpRequested
  | versionRequested
  | missingCommand
  | unknownCommand
  | unknownArgument
  | missingValue
  | invalidValue
  | repeatedOption
  | unexpectedValue
  deriving DecidableEq, Repr, Inhabited

/-- The exit code for a command line that is not carried out. -/
def UsageError.exitCode : UsageError → Nat
  | .helpRequested | .versionRequested => 0
  | _ => 2

/-- Why a command line is not carried out, in words. -/
def UsageError.message : UsageError → String
  | .helpRequested => "help requested"
  | .versionRequested => "version requested"
  | .missingCommand => "a command is required"
  | .unknownCommand => "unrecognized command"
  | .unknownArgument => "unexpected argument"
  | .missingValue => "a value is required"
  | .invalidValue => "invalid value"
  | .repeatedOption => "an option cannot be used multiple times"
  | .unexpectedValue => "unexpected value for an option that takes none"

/-- The options that take a value. -/
inductive Field where
  | languageVersion
  | exclude
  | extensions
  | severity
  | reporter
  | display
  | ruleset
  | projectRoot
  deriving DecidableEq, Repr, Inhabited

/-- The options of a lint run. -/
inductive LintOption where
  | valued (field : Field)
  | throwSyntaxErrors
  | help
  deriving DecidableEq, Repr, Inhabited

/-- The option with a long name. -/
def LintOption.ofName? : String → Option LintOption
  | "language-version" => some (.valued .languageVersion)
  | "exclude" => some (.valued .exclude)
  | "ext" => some (.valued .extensions)
  | "severity" => some (.valued .severity)
  | "reporter" => some (.valued .reporter)
  | "display" => some (.valued .display)
  | "ruleset" => some (.valued .ruleset)
  | "project-root" => some (.valued .projectRoot)
  | "throw-syntax-error" => some .throwSyntaxErrors
  | "help" => some .help
  | _ => none

/-- The option with a letter. -/
def LintOption.ofLetter? : Char → Option LintOption
  | 't' => some (.valued .languageVersion)
  | 's' => some (.valued .severity)
  | 'r' => some (.valued .reporter)
  | 'd' => some (.valued .display)
  | 'e' => some .throwSyntaxErrors
  | 'h' => some .help
  | _ => none

/-- The version that a text names, in decimal digits and perhaps with a sign. -/
def version? (text : String) : Option UInt8 :=
  let small (n : Nat) : Option UInt8 := if n ≤ 255 then some n.toUInt8 else none
  match text.toList with
  | '+' :: digits => (Text.number? 10 digits).bind small
  | '-' :: digits => ((Text.number? 10 digits).filter (· = 0)).map Nat.toUInt8
  | digits => (Text.number? 10 digits).bind small

/-- A value for an option that has none yet. -/
def once (old : Option String) (value : String) : Except UsageError (Option String) :=
  if old.isSome then .error .repeatedOption else .ok (some value)

/-- The version for a run that has none yet. -/
def onceVersion (old : Option UInt8) (value : String) : Except UsageError (Option UInt8) :=
  if old.isSome then .error .repeatedOption
  else
    match version? value with
    | some version => .ok (some version)
    | none => .error .invalidValue

/-- What the options and paths of a lint run give. -/
structure LintArgs where
  paths : List String := []
  languageVersion : Option UInt8 := none
  exclude : List String := []
  extensions : List String := []
  severity : Option String := none
  reporter : Option String := none
  display : Option String := none
  throwSyntaxErrors : Bool := false
  ruleset : Option String := none
  projectRoot : Option String := none
  deriving DecidableEq, Repr, Inhabited

/-- The settings that are given. -/
def LintArgs.toOverrides (given : LintArgs) : Overrides where
  projectRoot := given.projectRoot
  paths := given.paths
  exclude := given.exclude
  extensions := given.extensions
  severity := given.severity
  display := given.display
  reporter := given.reporter
  ruleset := given.ruleset
  languageVersion := given.languageVersion
  throwSyntaxErrors := given.throwSyntaxErrors

/-- What is given, with the value of one more option. -/
def Field.assign (given : LintArgs) (value : String) : Field → Except UsageError LintArgs
  | .exclude => .ok { given with exclude := given.exclude ++ [value] }
  | .extensions => .ok { given with extensions := given.extensions ++ [value] }
  | .languageVersion => do
    return { given with languageVersion := ← onceVersion given.languageVersion value }
  | .severity => do return { given with severity := ← once given.severity value }
  | .reporter => do return { given with reporter := ← once given.reporter value }
  | .display => do return { given with display := ← once given.display value }
  | .ruleset => do return { given with ruleset := ← once given.ruleset value }
  | .projectRoot => do return { given with projectRoot := ← once given.projectRoot value }

end TemplateLint.CommandLine
