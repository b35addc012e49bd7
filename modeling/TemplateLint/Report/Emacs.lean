import TemplateLint.Finding.Violation
import TemplateLint.Report.Lines

/-!
# The editor report

One line for each finding, in the form in which editors recognise a place to jump to.
-/

namespace TemplateLint.Report.Emacs

/-- The line of one finding. -/
def findingLine (v : Violation) : String :=
  let line := v.position.line
  let column := v.position.column
  s!"{v.path}:{line}:{column}: {v.severity.name} - {v.message}"

/-- The lines of the report for editors. -/
def lines (found : List Violation) : List String :=
  found.map findingLine

end TemplateLint.Report.Emacs
