import TemplateLint.Finding.Grouping
import TemplateLint.Report.Lines

/-!
# The JSON report

The report is one JSON object: the number of findings, and the files with their findings. It is written
over several lines with two spaces of indentation for each level, the members of an object in the order
in which they are given here. In a quoted text the quote, the backslash and the control characters below
the space are escaped and nothing else is.
-/

namespace TemplateLint.Report

/-- The JSON values that reports are made of. -/
inductive Json where
  | number (n : Int)
  | text (s : String)
  | array (items : List Json)
  | object (members : List (String × Json))
  deriving Repr, Inhabited

namespace Json

/-- A hexadecimal digit in lower case. -/
def hexDigit (n : Nat) : Char :=
  if n < 10 then Char.ofNat ('0'.toNat + n) else Char.ofNat ('a'.toNat + (n - 10))

/-- A character as it stands in a quoted text. -/
def escapeChar (c : Char) : List Char :=
  match c with
  | '"' => ['\\', '"']
  | '\\' => ['\\', '\\']
  | '\x08' => ['\\', 'b']
  | '\t' => ['\\', 't']
  | '\n' => ['\\', 'n']
  | '\x0c' => ['\\', 'f']
  | '\r' => ['\\', 'r']
  | _ =>
    if c.toNat < 0x20 then ['\\', 'u', '0', '0', hexDigit (c.toNat / 16), hexDigit (c.toNat % 16)]
    else [c]

/-- A text in quotes. -/
def quote (s : String) : String :=
  "\"" ++ String.ofList (s.toList.flatMap escapeChar) ++ "\""

/-- The indentation of a level. -/
def indent (level : Nat) : String :=
  String.ofList (List.replicate (2 * level) ' ')

mutual

/-- A value whose first line is already indented to a level. -/
def pretty (level : Nat) : Json → String
  | .number n => toString n
  | .text s => quote s
  | .array [] => "[]"
  | .array (item :: items) =>
    "[\n" ++ prettyItems (level + 1) (item :: items) ++ "\n" ++ indent level ++ "]"
  | .object [] => "\x7b\x7d"
  | .object (member :: members) =>
    "\x7b\n" ++ prettyMembers (level + 1) (member :: members) ++ "\n" ++ indent level ++ "\x7d"

/-- Values at a level, each on lines of its own. -/
def prettyItems (level : Nat) : List Json → String
  | [] => ""
  | [item] => indent level ++ pretty level item
  | item :: items => indent level ++ pretty level item ++ ",\n" ++ prettyItems level items

/-- Members at a level, each on lines of its own. -/
def prettyMembers (level : Nat) : List (String × Json) → String
  | [] => ""
  | [(name, value)] => indent level ++ quote name ++ ": " ++ pretty level value
  | (name, value) :: members =>
    indent level ++ quote name ++ ": " ++ pretty level value ++ ",\n" ++ prettyMembers level members

end

/-- One finding, under its file. -/
def ofViolation (v : Violation) : Json :=
  .object [("line", .number v.position.line), ("column", .number v.position.column),
    ("severity", .number v.severity.rank), ("type", .text v.severity.name),
    ("message", .text v.message)]

/-- One file with its findings. -/
def ofFile (group : FileFindings) : Json :=
  .object [("file", .text group.path), ("violations", .array (group.found.map ofViolation))]

/-- The report as a value. -/
def compose (found : List Violation) : Json :=
  .object [("failures", .number found.length), ("files", .array ((groupByFile found).map ofFile))]

/-- The report as it is written: all its lines at once. -/
def lines (found : List Violation) : List String :=
  [pretty 0 (compose found)]

end Json

end TemplateLint.Report
