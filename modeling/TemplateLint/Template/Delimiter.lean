import TemplateLint.Template.Token

/-!
# Delimiters

Tags and comments are the items of a template that are not plain text. An item is opened by a brace
and a mark and closed by the mark and a brace; the marks are a brace for output tags, a percent sign
for block tags and a number sign for comments. A delimiter owns the modifier, a hyphen or a tilde, that
stands on its inner side.

Inside tags brackets of three kinds must be closed in the order opposite to the one they were opened
in.
-/

namespace TemplateLint

/-- The two kinds of tags. -/
inductive Tag where
  | variable
  | block
  deriving DecidableEq, Repr, Inhabited

namespace Tag

/-- The delimiter that closes the tag, without a modifier. -/
def closer : Tag → List Char
  | .variable => ['}', '}']
  | .block => ['%', '}']

/-- The word for the tag in messages. -/
def name : Tag → String
  | .variable => "variable"
  | .block => "block"

/-- The kind of the tag's opening token. -/
def startKind : Tag → Token.Kind
  | .variable => .varStart
  | .block => .blockStart

/-- The kind of the tag's closing token. -/
def endKind : Tag → Token.Kind
  | .variable => .varEnd
  | .block => .blockEnd

end Tag

/-- The three kinds of brackets inside tags. -/
inductive Bracket where
  | round
  | square
  | curly
  deriving DecidableEq, Repr, Inhabited

namespace Bracket

/-- The bracket that a character opens. -/
def opened? : Char → Option Bracket
  | '(' => some .round
  | '[' => some .square
  | '{' => some .curly
  | _ => none

/-- The bracket that a character closes. -/
def closed? : Char → Option Bracket
  | ')' => some .round
  | ']' => some .square
  | '}' => some .curly
  | _ => none

/-- The character that opens the bracket. -/
def openChar : Bracket → Char
  | .round => '('
  | .square => '['
  | .curly => '{'

/-- The character that closes the bracket. -/
def closeChar : Bracket → Char
  | .round => ')'
  | .square => ']'
  | .curly => '}'

end Bracket

/-- The items of a template that are not plain text. -/
inductive Item where
  | comment
  | tag (tag : Tag)
  deriving DecidableEq, Repr, Inhabited

/-- The item whose opening delimiter stands at the front. -/
def Item.opened? : List Char → Option Item
  | '{' :: '#' :: _ => some .comment
  | '{' :: '{' :: _ => some (.tag .variable)
  | '{' :: '%' :: _ => some (.tag .block)
  | _ => none

/-- Whether a character modifies the delimiter it stands beside. -/
def isModifier (c : Char) : Bool :=
  c == '-' || c == '~'

/-- How many characters of an opening delimiter follow its brace. -/
def openerTail : List Char → Nat
  | _ :: c :: _ => if isModifier c then 2 else 1
  | _ => 1

/-- How many characters follow the first one of the delimiter at the front that closes a tag. -/
def closerTail? (tag : Tag) (c : Char) (rest : List Char) : Option Nat :=
  if tag.closer.isPrefixOf (c :: rest) then some 1
  else if isModifier c && tag.closer.isPrefixOf rest then some 2
  else none

/-- How many characters stand before the next opening delimiter. -/
def textLength : List Char → Nat
  | [] => 0
  | c :: rest => if (Item.opened? (c :: rest)).isSome then 0 else textLength rest + 1

/-- How many characters stand before the first delimiter that closes a comment, modifiers not seen as
part of it. -/
def commentLength? : List Char → Option Nat
  | [] => none
  | c :: rest =>
    if ['#', '}'].isPrefixOf (c :: rest) then some 0 else (commentLength? rest).map (· + 1)

end TemplateLint
