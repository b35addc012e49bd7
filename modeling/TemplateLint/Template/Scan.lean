import TemplateLint.Finding.Violation
import TemplateLint.Template.Lexeme
import TemplateLint.Template.Source

/-!
# Reading a template

A template is read from the front, one lexeme at a time. What may come next depends on where the
reader stands, and `Mode` says that: in plain text, in a comment, or in a tag with some brackets open.
`Mode.step` looks at the characters ahead and decides how many of them make the next lexeme, what kind
it is, and where the reader stands afterwards. `scan` repeats it. Since a lexeme is always cut off the
front and is never empty, the lexemes joined together are the template, and the places of the tokens
follow from the lexemes alone.

A tag is closed by its delimiter only when no bracket is open in it, and then its delimiter is
recognised before anything else. A comment goes on to the first place where its closing delimiter
stands.
-/

namespace TemplateLint

/-- The brackets that are open, innermost first, with the offsets where they were opened. -/
abbrev OpenBrackets := List (Bracket × Nat)

/-- The open brackets behind a character at an offset. -/
def OpenBrackets.pass (opened : OpenBrackets) (offset : Nat) (c : Char) :
    Except LocatedFault OpenBrackets :=
  match Bracket.opened? c with
  | some bracket => .ok ((bracket, offset) :: opened)
  | none =>
    match Bracket.closed? c with
    | none => .ok opened
    | some bracket =>
      match opened with
      | [] => .error ⟨offset, .unexpectedBracket bracket⟩
      | (inner, start) :: outer =>
        if inner = bracket then .ok outer else .error ⟨start, .unclosedBracket inner⟩

/-- Where the reader stands. Comments and tags keep the offset where they were opened. -/
inductive Mode where
  | text
  | comment (start : Nat)
  | tag (self : Tag) (start : Nat) (opened : OpenBrackets)
  deriving DecidableEq, Repr, Inhabited

/-- The next lexeme: its kind, how many characters follow its first one, and the mode behind it. -/
structure Step where
  kind : Token.Kind
  tail : Nat
  mode : Mode
  deriving DecidableEq, Repr, Inhabited

namespace Mode

/-- The next lexeme of a comment that goes on for the given number of characters before its closing
delimiter. A modifier at the end of these characters belongs to the delimiter. -/
def commentStep (start : Nat) (ahead : List Char) : Nat → Step
  | 0 => ⟨.commentEnd, 1, .text⟩
  | n + 1 =>
    if (ahead[n]?).any isModifier then
      match n with
      | 0 => ⟨.commentEnd, 2, .text⟩
      | m + 1 => ⟨.text, m, .comment start⟩
    else ⟨.text, n, .comment start⟩

/-- The next lexeme, whose first character is given with its offset. -/
def step (mode : Mode) (offset : Nat) (c : Char) (rest : List Char) : Except LocatedFault Step :=
  match mode with
  | .text =>
    match Item.opened? (c :: rest) with
    | none => .ok ⟨.text, textLength rest, .text⟩
    | some .comment => .ok ⟨.commentStart, openerTail rest, .comment offset⟩
    | some (.tag kind) => .ok ⟨kind.startKind, openerTail rest, .tag kind offset []⟩
  | .comment start =>
    match commentLength? (c :: rest) with
    | none => .error ⟨start, .unclosedComment⟩
    | some n => .ok (commentStep start (c :: rest) n)
  | .tag self start opened =>
    match if opened.isEmpty then closerTail? self c rest else none with
    | some tail => .ok ⟨self.endKind, tail, .text⟩
    | none => do
      let opened ← opened.pass offset c
      match innerLexeme c rest with
      | .ok (kind, tail) => .ok ⟨kind, tail, .tag self start opened⟩
      | .error fault => .error ⟨offset, fault⟩

/-- The end of the template is right in plain text only. -/
def finish : Mode → Except LocatedFault Unit
  | .text => .ok ()
  | .comment start => .error ⟨start, .unclosedComment⟩
  | .tag self start [] => .error ⟨start, .unclosedTag self⟩
  | .tag _ _ ((bracket, start) :: _) => .error ⟨start, .unclosedBracket bracket⟩

end Mode

/-- The lexemes of the characters from an offset on. -/
def scan (mode : Mode) (offset : Nat) : List Char → Except LocatedFault (List Lexeme)
  | [] => do
    mode.finish
    return []
  | c :: rest => do
    let step ← mode.step offset c rest
    let more ← scan step.mode (offset + step.tail + 1) (rest.drop step.tail)
    return ⟨step.kind, c :: rest.take step.tail⟩ :: more
termination_by text => text.length
decreasing_by
  simp only [List.length_drop, List.length_cons]
  omega

/-- Tokens for lexemes that begin at a position, and the token that marks the end. -/
def Lexeme.locate (here : Position) : List Lexeme → List Token
  | [] => [⟨.eof, "", here⟩]
  | l :: more => ⟨l.kind, String.ofList l.text, here⟩ :: locate (here.advance l.text) more

/-- Something that reads templates. -/
abbrev Tokenizer := Source → Except SyntaxError TokenStream

/-- The tokens of a template, or the place where it stops making sense. -/
def tokenize : Tokenizer := fun source =>
  let text := source.content.toList
  match scan .text 0 text with
  | .ok lexemes => .ok ⟨source.displayPath, Lexeme.locate Position.start lexemes⟩
  | .error ⟨offset, fault⟩ =>
    .error ⟨source.displayPath, Position.after (text.take offset), fault.message⟩

end TemplateLint
