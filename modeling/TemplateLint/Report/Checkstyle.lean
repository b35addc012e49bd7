import TemplateLint.Finding.Grouping
import TemplateLint.Report.Lines

/-!
# The checkstyle report

The XML that build servers read. Paths and messages stand in attribute values, where five characters
are written as entities and all others as they are.
-/

namespace TemplateLint.Report.Checkstyle

/-- A character as it stands in an attribute value. -/
def escapeChar (c : Char) : List Char :=
  match c with
  | '&' => "&amp;".toList
  | '<' => "&lt;".toList
  | '>' => "&gt;".toList
  | '"' => "&quot;".toList
  | '\x27' => "&apos;".toList
  | _ => [c]

/-- A text as it stands in an attribute value. -/
def escape (s : String) : String :=
  String.ofList (s.toList.flatMap escapeChar)

/-- The element of one finding. -/
def findingLine (v : Violation) : String :=
  let line := v.position.line
  let column := v.position.column
  let message := escape v.message
  s!"    <error line=\"{line}\" column=\"{column}\" severity=\"{v.severity.name}\" " ++
    s!"message=\"{message}\" source=\"tmplint\"/>"

/-- The lines of one file. -/
def fileLines (group : FileFindings) : List String :=
  let path := escape group.path
  s!"  <file name=\"{path}\">" :: group.found.map findingLine ++ ["  </file>"]

/-- The lines of the report for build servers. -/
def lines (found : List Violation) : List String :=
  ["<?xml version=\"1.0\" encoding=\"UTF-8\"?>", "<checkstyle>"] ++
    (groupByFile found).flatMap fileLines ++ ["</checkstyle>"]

end TemplateLint.Report.Checkstyle
