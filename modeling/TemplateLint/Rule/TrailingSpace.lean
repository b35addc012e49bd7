import TemplateLint.Finding.Violation
import TemplateLint.Template.Token
import TemplateLint.Text.Split

/-!
# Blanks at line ends

No line ends with spaces or tabs. A line break stands in plain text, in a comment or in the blanks of a
tag, and the blanks before it are then part of the same token; line breaks in quoted strings belong to
the string and are left alone. A carriage return before the line feed counts as part of the break.
-/

namespace TemplateLint

/-- Asks that no line ends with spaces or tabs. -/
structure TrailingSpace where
  severity : Severity := .error
  deriving DecidableEq, Repr, Inhabited

namespace TrailingSpace

/-- Whether a character may not end a line. -/
def isTrailing (c : Char) : Bool :=
  c == ' ' || c == '\t'

/-- A line without the carriage return of its break. -/
def withoutReturn (line : List Char) : List Char :=
  match line.getLast? with
  | some '\r' => line.dropLast
  | _ => line

/-- The places of the first trailing blanks of lines, the first of which begins at a position. The last
line is not ended here: it goes on in the token that follows. -/
def trailingFrom (here : Position) : List (List Char) → List Position
  | [] => []
  | [_] => []
  | line :: more =>
    let line := withoutReturn line
    let kept := Text.trimEnd isTrailing line
    let found := if kept.length = line.length then [] else [⟨here.line, here.column + kept.length⟩]
    found ++ trailingFrom ⟨here.line + 1, 0⟩ more

/-- The places in one token where the blanks at a line end begin. -/
def trailing (token : Token) : List Position :=
  match token.kind with
  | .text | .whitespace => trailingFrom token.position (Text.cutAt '\n' token.value.toList)
  | _ => []

/-- The findings of the rule, in the order of the lines. -/
def check (rule : TrailingSpace) (stream : TokenStream) : List Violation :=
  (stream.tokens.flatMap trailing).map fun position =>
    ⟨stream.path, position, "A line should not end with blank space(s).", rule.severity⟩

end TrailingSpace

end TemplateLint
