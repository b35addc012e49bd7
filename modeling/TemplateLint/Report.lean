import TemplateLint.Failure
import TemplateLint.Registry
import TemplateLint.Report.Checkstyle
import TemplateLint.Report.Console
import TemplateLint.Report.Emacs
import TemplateLint.Report.Github
import TemplateLint.Report.Json

/-!
# Reports

A reporter turns the findings that are to be shown into text. Which one is used is chosen by name.
Whether the console report is coloured depends on the terminal and is known when the stock reporters are
set up.

A report is written to a sink that may break, one line after the other. The sink takes bytes in order
up to its limit, and fails on the first byte past it. The line that it fails on is the last one it is
given.
-/

namespace TemplateLint

/-- The kinds of reports. -/
inductive Reporter where
  | console (color : Bool)
  | json
  | emacs
  | checkstyle
  | github
  deriving DecidableEq, Repr, Inhabited

namespace Reporter

/-- The lines of the report on findings. -/
def lines : Reporter → List Violation → List String
  | .console color => Report.Console.lines color
  | .json => Report.Json.lines
  | .emacs => Report.Emacs.lines
  | .checkstyle => Report.Checkstyle.lines
  | .github => Report.Github.lines

/-- The report on findings. -/
def render (reporter : Reporter) (found : List Violation) : String :=
  Report.unlines (reporter.lines found)

end Reporter

/-- The reporters a run can choose from. -/
abbrev ReporterRegistry := Registry Reporter

namespace ReporterRegistry

/-- The stock reporters. -/
def stock (color : Bool) : ReporterRegistry :=
  Registry.ofList [("console", .console color), ("json", .json), ("emacs", .emacs),
    ("checkstyle", .checkstyle), ("github", .github)]

/-- The reporter of a name. -/
def resolve (registry : ReporterRegistry) (name : String) : Except SettingError Reporter :=
  match registry.find? name with
  | some reporter => .ok reporter
  | none => .error (.unknownReporter name registry.names)

end ReporterRegistry

/-- Where a report goes: with no limit everything is taken, otherwise that many bytes. -/
structure Sink where
  limit : Option Nat := none
  deriving DecidableEq, Repr, Inhabited

namespace Sink

/-- The bytes of a text that the sink takes. -/
def accepted (sink : Sink) (text : String) : ByteArray :=
  match sink.limit with
  | none => text.toUTF8
  | some limit => text.toUTF8.extract 0 limit

/-- Whether the sink takes the whole text. -/
def takes (sink : Sink) (text : String) : Bool :=
  match sink.limit with
  | none => true
  | some limit => text.utf8ByteSize ≤ limit

/-- Why a sink fails. -/
def reason : String := "broken pipe"

/-- What a sink can still take behind some bytes. -/
def behind (sink : Sink) (taken : ByteArray) : Sink :=
  ⟨sink.limit.map (· - taken.size)⟩

end Sink

/-- What came of writing to a sink. -/
structure Delivery where
  /-- The bytes that the sink took. -/
  taken : ByteArray
  /-- Whether the sink took all it was given. -/
  complete : Bool

/-- Writes lines one after the other behind the bytes that a sink has taken, up to the first line that
it does not take. -/
def Sink.write (sink : Sink) (taken : ByteArray) : List String → Delivery
  | [] => ⟨taken, true⟩
  | line :: rest =>
    let left := sink.behind taken
    let text := line ++ "\n"
    if left.takes text then sink.write (taken ++ left.accepted text) rest
    else ⟨taken ++ left.accepted text, false⟩

end TemplateLint
