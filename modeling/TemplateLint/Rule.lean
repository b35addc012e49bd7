import TemplateLint.Rule.DelimiterSpacing
import TemplateLint.Rule.DeprecatedTag
import TemplateLint.Rule.LowerCaseVariable
import TemplateLint.Rule.TrailingSpace

/-!
# Rules

A rule looks at the tokens of one template and gives its findings about it. Rules keep nothing from one
template to the next and do not see each other's findings.
-/

namespace TemplateLint

/-- A stock rule with its settings. -/
inductive Rule where
  | delimiterSpacing (rule : DelimiterSpacing)
  | trailingSpace (rule : TrailingSpace)
  | lowerCaseVariable (rule : LowerCaseVariable)
  | deprecatedTag (rule : DeprecatedTag)
  deriving DecidableEq, Repr, Inhabited

namespace Rule

/-- The name a rule is known by. -/
def id : Rule → String
  | .delimiterSpacing _ => "delimiter-spacing"
  | .trailingSpace _ => "trailing-space"
  | .lowerCaseVariable _ => "lower-case-variable"
  | .deprecatedTag _ => "deprecated-tag"

/-- The findings of a rule about one template. -/
def check (rule : Rule) (stream : TokenStream) : List Violation :=
  match rule with
  | .delimiterSpacing r => r.check stream
  | .trailingSpace r => r.check stream
  | .lowerCaseVariable r => r.check stream
  | .deprecatedTag r => r.check stream

end Rule

end TemplateLint
