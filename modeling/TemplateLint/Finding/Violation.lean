import TemplateLint.Finding.Severity
import TemplateLint.Text.Position

/-!
# Findings

A violation is one finding about one template: the path under which the template is reported, a place
in it, what is wrong there, and how much that matters. A template that cannot be read at all has a
syntax error instead, which stops the run or is itself turned into a finding of the highest severity.
-/

namespace TemplateLint

/-- One finding. -/
structure Violation where
  path : String
  position : Position
  message : String
  severity : Severity
  deriving DecidableEq, Repr, Inhabited

/-- Where and why a template cannot be read. -/
structure SyntaxError where
  path : String
  position : Position
  message : String
  deriving DecidableEq, Repr, Inhabited

namespace SyntaxError

/-- The error in one sentence. -/
def describe (e : SyntaxError) : String :=
  let line := e.position.line
  let column := e.position.column
  s!"{e.message} in {e.path} at line {line}, column {column}"

/-- The error as a finding about its template. -/
def toViolation (e : SyntaxError) : Violation :=
  ⟨e.path, e.position, e.message, .error⟩

end SyntaxError

end TemplateLint
