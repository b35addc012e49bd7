import TemplateLint.Finding.Violation
import TemplateLint.Template.Token

/-!
# Spacing inside delimiters

What a tag holds is kept apart from its delimiters by a fixed number of spaces. Padding that goes over
a line break is a matter of layout and is left alone.
-/

namespace TemplateLint

/-- Asks for a number of spaces behind each opening and before each closing delimiter of a tag. -/
structure DelimiterSpacing where
  spaces : Nat := 1
  severity : Severity := .error
  deriving DecidableEq, Repr, Inhabited

namespace DelimiterSpacing

/-- Whether a run of blanks pads a delimiter as asked for. -/
def acceptsBlanks (rule : DelimiterSpacing) (blanks : List Char) : Bool :=
  blanks.contains '\n' || (blanks.length == rule.spaces && blanks.all (· == ' '))

/-- Whether the token beside a delimiter, if there is one, pads it as asked for. Anything but blanks
pads it with no space at all. -/
def accepts (rule : DelimiterSpacing) (neighbour : Option Token) : Bool :=
  match neighbour.filter fun t => t.is .whitespace with
  | some blanks => rule.acceptsBlanks blanks.value.toList
  | none => rule.spaces == 0

/-- The finding about a delimiter whose padding on one side is not as asked for. -/
def finding (rule : DelimiterSpacing) (path : String) (side : String) (delimiter : Token) :
    Violation :=
  let spaces := rule.spaces
  ⟨path, delimiter.position,
    s!"There should be {spaces} space(s) {side} \"{delimiter.value}\".", rule.severity⟩

/-- The findings at one token, given the tokens before and behind it. -/
def checkToken (rule : DelimiterSpacing) (path : String) (before : Option Token) (token : Token)
    (behind : Option Token) : List Violation :=
  match token.kind with
  | .varStart | .blockStart =>
    if rule.accepts behind then [] else [rule.finding path "after" token]
  | .varEnd | .blockEnd =>
    if rule.accepts before then [] else [rule.finding path "before" token]
  | _ => []

/-- The findings at tokens that stand behind the given one. -/
def checkFrom (rule : DelimiterSpacing) (path : String) (before : Option Token) :
    List Token → List Violation
  | [] => []
  | token :: rest =>
    rule.checkToken path before token rest.head? ++ rule.checkFrom path (some token) rest

/-- The findings of the rule, in the order of the delimiters. -/
def check (rule : DelimiterSpacing) (stream : TokenStream) : List Violation :=
  rule.checkFrom stream.path none stream.tokens

end DelimiterSpacing

end TemplateLint
