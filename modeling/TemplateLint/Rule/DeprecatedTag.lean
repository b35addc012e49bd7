import TemplateLint.Finding.Violation
import TemplateLint.Template.Token

/-!
# Tags that were removed

Some block tags exist only up to a version of the template language. A template for that version or a
later one should not use them.
-/

namespace TemplateLint

/-- Asks that no tag is used that the language version has lost. -/
structure DeprecatedTag where
  version : UInt8
  severity : Severity := .warning
  deriving DecidableEq, Repr, Inhabited

namespace DeprecatedTag

/-- A block tag that is gone since a version, and what to use in its place. -/
structure Removed where
  name : String
  since : UInt8
  hint : String
  deriving DecidableEq, Repr, Inhabited

/-- The removed tags. -/
def removed : List Removed :=
  [⟨"spaceless", 3, "use the \"spaceless\" filter or whitespace control"⟩,
    ⟨"filter", 3, "use the \"apply\" tag"⟩]

/-- The removed tag that a name stands for in a version. -/
def removed? (version : UInt8) (name : String) : Option Removed :=
  removed.find? fun tag => tag.name == name && tag.since ≤ version

/-- The finding about the first word of a tag. -/
def finding? (rule : DeprecatedTag) (path : String) (word : Token) : Option Violation :=
  if word.is .name then
    (removed? rule.version word.value).map fun tag =>
      ⟨path, word.position,
        s!"The \"{tag.name}\" tag is not available since version {tag.since}; {tag.hint}.",
        rule.severity⟩
  else none

/-- The finding about the tag that a token opens, given the tokens behind it. -/
def checkToken (rule : DeprecatedTag) (path : String) (token : Token) (rest : List Token) :
    Option Violation :=
  if token.is .blockStart then
    (Token.significant rest).head?.bind (rule.finding? path)
  else none

/-- The findings in a run of tokens. -/
def checkFrom (rule : DeprecatedTag) (path : String) : List Token → List Violation
  | [] => []
  | token :: rest => (rule.checkToken path token rest).toList ++ rule.checkFrom path rest

/-- The findings of the rule, in the order of the tags. -/
def check (rule : DeprecatedTag) (stream : TokenStream) : List Violation :=
  rule.checkFrom stream.path stream.tokens

end DeprecatedTag

end TemplateLint
