import TemplateLint.Finding.Grouping
import TemplateLint.Report.Lines

/-!
# The console report

The report for people: each file with its findings below it, then a summary line. Colours only add
escape sequences around parts of the text. A style is opened by one sequence and closed by another in
the same line, and without colours the same parts are written bare.
-/

namespace TemplateLint.Report

/-- How a part of the text can stand out on a terminal. -/
inductive Style where
  | bold
  | red
  | yellow
  | blue
  | gray
  deriving DecidableEq, Repr, Inhabited

namespace Style

/-- The number that switches the style on. -/
def on : Style → Nat
  | .bold => 1
  | .red => 31
  | .yellow => 33
  | .blue => 34
  | .gray => 90

/-- The number that switches the style off. -/
def off : Style → Nat
  | .bold => 0
  | _ => 39

/-- The escape sequence for a number. -/
def sequence (number : Nat) : String :=
  s!"\x1b[{number}m"

/-- A text in a style. -/
def wrap (style : Style) (text : String) : String :=
  sequence style.on ++ text ++ sequence style.off

/-- A text in a style, if colours are wanted. -/
def paint (style : Style) (color : Bool) (text : String) : String :=
  if color then style.wrap text else text

end Style

namespace Console

/-- The sign and the word for a severity. -/
def label : Severity → String × String
  | .error => ("✖", "⟦error⟧")
  | .warning => ("▲", "⟦warn⟧")
  | .info => ("◆", "⟦info⟧")
  | .ignore => ("·", "⟦ignore⟧")

/-- The colour of a severity. -/
def tint : Severity → Style
  | .error => .red
  | .warning => .yellow
  | .info => .blue
  | .ignore => .gray

/-- The sign and the word for a severity, in its colour. The word is bold unless the finding is to be
ignored. -/
def badge (color : Bool) (severity : Severity) : String :=
  let (sign, word) := label severity
  let style := tint severity
  let word := style.paint color word
  let word := if severity = .ignore then word else Style.bold.paint color word
  style.paint color sign ++ " " ++ word

/-- The line of one finding. -/
def findingLine (color : Bool) (v : Violation) : String :=
  let badge := badge color v.severity
  let line := v.position.line
  let column := v.position.column
  s!"  {badge} l.{line} c.{column} — {v.message}"

/-- The lines of one file. -/
def fileLines (color : Bool) (group : FileFindings) : List String :=
  Style.bold.paint color group.path :: group.found.map (findingLine color)

/-- How many findings have a severity. -/
def count (severity : Severity) (found : List Violation) : Nat :=
  found.countP fun v => v.severity = severity

/-- What the report ends with. -/
def summary (found : List Violation) : String :=
  if found.isEmpty then "No violation found."
  else
    let total := found.length
    let errors := count .error found
    let warnings := count .warning found
    let infos := count .info found
    let ignored := count .ignore found
    s!"— Summary — {total} violation(s): errors={errors} warnings={warnings} infos={infos} " ++
      s!"ignored={ignored}"

/-- The lines of the report for people. -/
def lines (color : Bool) (found : List Violation) : List String :=
  (groupByFile found).flatMap (fileLines color) ++ [Style.bold.paint color (summary found)]

end Console

end TemplateLint.Report
