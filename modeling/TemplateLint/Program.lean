import TemplateLint.CommandLine
import TemplateLint.Run

/-!
# The program

What the program does is a function of its command line, the file system and whether colours are
wanted, and of two things that are not its own: how config files are read, and which of several
unreadable templates is noticed first. A command that is carried out leaves an exit code and what was
written to the two outputs. When something stops it, the exit code is two and the reason goes to the
error output; what it had written before that stays written.
-/

namespace TemplateLint

/-- What a command leaves. -/
structure Completion where
  exitCode : Nat := 0
  /-- The bytes on the standard output. -/
  output : ByteArray := .empty
  errors : String := ""
  deriving Inhabited

namespace Program

/-- The version of the program. -/
def version : String := "0.1.0"

/-- What is left when something stops a command that has written some bytes. -/
def stopped (color : Bool) (written : ByteArray) (message : String) : Completion :=
  let label := Report.Style.bold.paint color (Report.Style.red.paint color "error:")
  { exitCode := 2, output := written, errors := label ++ " " ++ message ++ "\n" }

/-- The lines that say which rulesets and reporters there are. -/
def choices : String :=
  let line (title : String) (names : List String) : String :=
    title ++ ": " ++ ", ".intercalate names ++ "\n"
  line "rulesets" RulesetRegistry.stock.names
    ++ line "reporters" (ReporterRegistry.stock false).names

/-- Lints what the command line and the config file ask for. -/
def lint (parser : ConfigParser) (fs : FileSystem) (race : Nat) (color : Bool)
    (overrides : Overrides) : Completion :=
  match Settings.resolve parser fs overrides with
  | .error error => stopped color .empty error.message
  | .ok settings =>
    let seen := run fs race color settings {}
    match seen.result with
    | .error failure => stopped color seen.written failure.message
    | .ok outcome => { exitCode := outcome.exitCode, output := seen.written }

/-- The command line in short. -/
def usage : String :=
  "Usage: tmplint <COMMAND>\n\n" ++
  "Commands:\n" ++
  "  version   Show version\n" ++
  "  rulesets  List rulesets and reporters\n" ++
  "  lint      Run lint checks\n" ++
  "  help      Print this message\n\n" ++
  "Options of lint:\n" ++
  "  [PATHS]...                    Paths to scan for templates (default: .)\n" ++
  "  -t, --language-version <N>    Major version of the template language (default: 3)\n" ++
  "      --exclude <FOLDER>        Folder to exclude below a scanned path (repeatable)\n" ++
  "      --ext <EXT>               Template file extension to scan (repeatable, default: twig)\n" ++
  "  -s, --severity <NAME>         Lowest blocking severity: ignore|info|warning|error\n" ++
  "  -r, --reporter <NAME>         Reporter: console|json|emacs|checkstyle|github\n" ++
  "  -d, --display <MODE>          Violations to display: all|blocking\n" ++
  "  -e, --throw-syntax-error      Abort on the first template syntax error\n" ++
  "      --ruleset <NAME>          Ruleset name (default: official)\n" ++
  "      --project-root <DIR>      Project root used to find the config file\n"

/-- What is left when the command line is not carried out. Help and version are answers, so they go to
the standard output. -/
def refused (error : CommandLine.UsageError) : Completion :=
  match error with
  | .helpRequested => { output := usage.toUTF8 }
  | .versionRequested => { output := ("tmplint " ++ version ++ "\n").toUTF8 }
  | _ => { exitCode := error.exitCode, errors := "error: " ++ error.message ++ "\n\n" ++ usage }

/-- Carries out a command. -/
def perform (parser : ConfigParser) (fs : FileSystem) (race : Nat) (color : Bool) :
    CommandLine.Command → Completion
  | .version => { output := (version ++ "\n").toUTF8 }
  | .rulesets => { output := choices.toUTF8 }
  | .lint given => lint parser fs race color given.toOverrides

/-- What a command line leaves. -/
def answer (parser : ConfigParser) (fs : FileSystem) (race : Nat) (color : Bool)
    (args : List String) : Completion :=
  match CommandLine.read args with
  | .error error => refused error
  | .ok command => perform parser fs race color command

end Program

end TemplateLint
