import TemplateLint.Finding.Violation
import TemplateLint.Report.Lines

/-!
# The annotation report

One workflow command for each finding, which GitHub shows beside the line it is about. A command is one
line, so line breaks are percent-encoded, and with them the percent sign. In the path the colon and the
comma are encoded too, since they end it.
-/

namespace TemplateLint.Report.Github

/-- A text with a code in the place of each occurrence of a character. -/
def replaced (c : Char) (code : String) (text : List Char) : List Char :=
  text.flatMap fun d => if d = c then code.toList else [d]

/-- A text as it stands in the message of a command. The percent sign is replaced first, since every
code begins with one. -/
def escapeData (s : String) : String :=
  String.ofList (replaced '\n' "%0A" (replaced '\r' "%0D" (replaced '%' "%25" s.toList)))

/-- A text as it stands in a property of a command. -/
def escapeProperty (s : String) : String :=
  String.ofList (replaced ',' "%2C" (replaced ':' "%3A" (escapeData s).toList))

/-- The command that a severity is shown by. -/
def level : Severity → String
  | .error => "error"
  | .warning => "warning"
  | .info | .ignore => "notice"

/-- The command for one finding. -/
def findingLine (v : Violation) : String :=
  let level := level v.severity
  let path := escapeProperty v.path
  let line := v.position.line
  let column := v.position.column
  let message := escapeData v.message
  s!"::{level} file={path},line={line},col={column}::{message}"

/-- The lines of the report for workflows. -/
def lines (found : List Violation) : List String :=
  found.map findingLine

end TemplateLint.Report.Github
