import TemplateLint.Template.Delimiter

/-!
# Faults of a template

A fault names the offset of the character to blame: for what is not closed, the place where it was
opened, and otherwise the character that does not fit.
-/

namespace TemplateLint

/-- Why a template cannot be read. -/
inductive Fault where
  | unclosedComment
  | unclosedTag (tag : Tag)
  | unclosedString
  | unclosedBracket (bracket : Bracket)
  | unexpectedBracket (bracket : Bracket)
  | unexpectedCharacter (c : Char)
  deriving DecidableEq, Repr, Inhabited

/-- The fault in words. -/
def Fault.message : Fault → String
  | .unclosedComment => "Unclosed comment"
  | .unclosedTag tag => s!"Unclosed \"{tag.name}\""
  | .unclosedString => "Unclosed string"
  | .unclosedBracket bracket => s!"Unclosed \"{bracket.openChar}\""
  | .unexpectedBracket bracket => s!"Unexpected \"{bracket.closeChar}\""
  | .unexpectedCharacter c => s!"Unexpected character \"{c}\""

/-- A fault, with the offset of the character to blame. -/
structure LocatedFault where
  offset : Nat
  fault : Fault
  deriving DecidableEq, Repr, Inhabited

end TemplateLint
