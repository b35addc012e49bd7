import TemplateLint.Finding.Violation
import TemplateLint.Template.Token

/-!
# Names of variables

A block tag whose first word is `set` declares the names that follow, up to the first thing that is
neither a name nor a comma. Each declared name is written in lower case, with underscores between its
words.
-/

namespace TemplateLint

/-- Asks that declared variables are in lower case. -/
structure LowerCaseVariable where
  severity : Severity := .warning
  deriving DecidableEq, Repr, Inhabited

namespace LowerCaseVariable

/-- Whether a character may stand in a name behind its first letter. -/
def isNamePart (c : Char) : Bool :=
  c.isLower || c.isDigit || c == '_'

/-- Whether characters are a lower-case letter and then lower-case letters, digits and underscores. -/
def isLowerWord : List Char → Bool
  | [] => false
  | c :: rest => c.isLower && rest.all isNamePart

/-- Whether a name is in lower case. One underscore may stand before its first letter. -/
def isLowerCase (name : List Char) : Bool :=
  match name with
  | '_' :: rest => isLowerWord rest
  | _ => isLowerWord name

/-- The names that significant tokens declare, up to the first token that ends a declaration. -/
def declared : List Token → List Token
  | [] => []
  | token :: rest =>
    if token.is .name then token :: declared rest
    else if token.isValue .punctuation "," then declared rest
    else []

/-- The names declared by the tag that a token opens, given the tokens behind it. -/
def targets (token : Token) (rest : List Token) : List Token :=
  if token.is .blockStart then
    match Token.significant rest with
    | word :: names => if word.isValue .name "set" then declared names else []
    | [] => []
  else []

/-- The names declared anywhere in a run of tokens. -/
def allTargets : List Token → List Token
  | [] => []
  | token :: rest => targets token rest ++ allTargets rest

/-- The findings of the rule, in the order of the names. -/
def check (rule : LowerCaseVariable) (stream : TokenStream) : List Violation :=
  ((allTargets stream.tokens).filter fun t => !isLowerCase t.value.toList).map fun t =>
    ⟨stream.path, t.position,
      s!"The \"{t.value}\" variable should be in lower case (use _ as a separator).", rule.severity⟩

end LowerCaseVariable

end TemplateLint
