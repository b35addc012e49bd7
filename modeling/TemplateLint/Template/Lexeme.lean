import TemplateLint.Template.Fault
import TemplateLint.Text.Blank

/-!
# Lexemes

A lexeme is a non-empty piece of a template that makes one token. The pieces inside tags are told apart
by their first character, with one exception: a point or a question mark is an operator when it is
doubled and punctuation otherwise. Runs of blanks, words and numbers are as long as possible, and a
quoted string ends at the first quote like its own that no backslash stands before.
-/

namespace TemplateLint

/-- A piece of a template that makes one token. -/
structure Lexeme where
  kind : Token.Kind
  text : List Char
  deriving DecidableEq, Repr, Inhabited

/-- Whether a character can begin a word. -/
def isWordStart (c : Char) : Bool :=
  c.isAlpha || c == '_'

/-- Whether a character can stand in a word behind its first one. -/
def isWordPart (c : Char) : Bool :=
  c.isAlphanum || c == '_'

/-- The words that are operators. -/
def wordOperators : List (List Char) :=
  ["and", "or", "not", "in", "is"].map String.toList

/-- What a word is. -/
def wordKind (word : List Char) : Token.Kind :=
  if wordOperators.contains word then .operator else .name

/-- How many characters continue a number behind its first digit: the other digits, and a point with
digits behind it. -/
def numberTail (rest : List Char) : Nat :=
  let whole := (rest.takeWhile Char.isDigit).length
  match rest.drop whole with
  | '.' :: d :: more => if d.isDigit then whole + 2 + (more.takeWhile Char.isDigit).length else whole
  | _ => whole

/-- How many characters follow an opening quote up to and with the quote that closes it. A backslash
takes away the meaning of the character behind it. -/
def quotedTail? (quote : Char) : List Char → Option Nat
  | [] => none
  | ['\\'] => none
  | '\\' :: _ :: rest => (quotedTail? quote rest).map (· + 2)
  | c :: rest => if c == quote then some 1 else (quotedTail? quote rest).map (· + 1)

/-- The operators of two characters. -/
def doubleOperators : List (Char × Char) :=
  [('.', '.'), ('/', '/'), ('*', '*'), ('=', '='), ('!', '='), ('<', '='), ('>', '='), ('?', '?')]

/-- The operators of one character. -/
def singleOperators : List Char :=
  ['+', '-', '~', '*', '/', '%', '<', '>', '=']

/-- How many characters follow the first one of the operator at the front. -/
def operatorTail? (c : Char) (rest : List Char) : Option Nat :=
  if doubleOperators.any fun (a, b) => c == a && rest.head? == some b then some 1
  else if singleOperators.contains c then some 0
  else none

/-- The punctuation characters besides brackets. -/
def punctuationMarks : List Char := ['?', ':', '.', ',', '|']

/-- The kind of the lexeme at the front of what a tag holds, and how many characters follow its first
one. -/
def innerLexeme (c : Char) (rest : List Char) : Except Fault (Token.Kind × Nat) :=
  if isBlank c then .ok (.whitespace, (rest.takeWhile isBlank).length)
  else if isWordStart c then
    let tail := (rest.takeWhile isWordPart).length
    .ok (wordKind (c :: rest.take tail), tail)
  else if c.isDigit then .ok (.number, numberTail rest)
  else if c == '"' || c == '\x27' then
    match quotedTail? c rest with
    | some tail => .ok (.string, tail)
    | none => .error .unclosedString
  else if (Bracket.opened? c).isSome || (Bracket.closed? c).isSome then .ok (.punctuation, 0)
  else
    match operatorTail? c rest with
    | some tail => .ok (.operator, tail)
    | none =>
      if punctuationMarks.contains c then .ok (.punctuation, 0)
      else .error (.unexpectedCharacter c)

end TemplateLint
