import TemplateLint.Files.Path
import TemplateLint.Finding.Violation

/-!
# What can stop a run

A run ends early for one of four reasons: a setting makes no sense, a template has a syntax error and
errors are not tolerated, a file cannot be read, or the report cannot be written. Each reason is a
constructor that keeps what the reason is about; the words shown to the user are made in `message` and
nowhere else.
-/

namespace TemplateLint

/-- Why a path cannot be followed or a file cannot be read. -/
inductive FileError where
  | missing
  | notDirectory
  | isDirectory
  | tooManyLinks
  | nameTooLong
  | denied
  /-- Any other reason, in the system's own words. -/
  | other (words : String)
  deriving DecidableEq, Repr, Inhabited

/-- The system's words for the reason. -/
def FileError.message : FileError → String
  | .missing => "No such file or directory (os error 2)"
  | .notDirectory => "Not a directory (os error 20)"
  | .isDirectory => "Is a directory (os error 21)"
  | .tooManyLinks => "Too many levels of symbolic links (os error 40)"
  | .nameTooLong => "File name too long (os error 36)"
  | .denied => "Permission denied (os error 13)"
  | .other words => words

/-- A setting that makes no sense. -/
inductive SettingError where
  | unknownSeverity (name : String)
  | unknownDisplayMode (name : String)
  | unknownRuleset (name : String) (available : List String)
  | unknownReporter (name : String) (available : List String)
  | unsupportedVersion (ruleset : String) (version : UInt8) (supported : String)
  | invalidConfigFile (path : RawPath) (reason : String)
  | invalidPattern (pattern : String) (reason : String)
  deriving DecidableEq, Repr, Inhabited

/-- The setting and what is wrong with it, in one sentence. -/
def SettingError.message : SettingError → String
  | .unknownSeverity name =>
    s!"invalid severity limit '{name}' (expected ignore|info|warning|error)"
  | .unknownDisplayMode name => s!"invalid display mode '{name}' (expected all|blocking)"
  | .unknownRuleset name available =>
    let choices := ", ".intercalate available
    s!"unknown ruleset '{name}' (available: {choices})"
  | .unknownReporter name available =>
    let choices := ", ".intercalate available
    s!"unknown reporter '{name}' (available: {choices})"
  | .unsupportedVersion ruleset version supported =>
    s!"ruleset '{ruleset}' does not support language version {version} (supported: {supported})"
  | .invalidConfigFile path reason =>
    let path := Utf8.lossy path
    s!"invalid config file {path}: {reason}"
  | .invalidPattern pattern reason => s!"invalid file pattern '{pattern}': {reason}"

/-- What stopped a run. -/
inductive Failure where
  | setting (error : SettingError)
  | syntaxError (error : SyntaxError)
  | unreadable (path : RawPath) (error : FileError)
  | unwritable (reason : String)
  deriving DecidableEq, Repr, Inhabited

/-- What stopped the run, in one sentence. -/
def Failure.message : Failure → String
  | .setting error => error.message
  | .syntaxError error => error.describe
  | .unreadable path error =>
    let path := Utf8.lossy path
    s!"cannot read {path}: {error.message}"
  | .unwritable reason => s!"cannot write report: {reason}"

end TemplateLint
