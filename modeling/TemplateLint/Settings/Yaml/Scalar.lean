import TemplateLint.Text.Digits

/-!
# YAML scalars

A scalar is a text, written plainly or between quotes, and it may go on over several lines. Then it is
folded: blanks around a line break are dropped, a single break becomes a space, and of several breaks in
a row all but the first are kept. What stands between two visible characters is called a gap here.

A plain scalar has no mark at its end. It ends before a comment, before a colon that is followed by a
blank, and in a list or mapping between brackets also before a comma or a bracket. On a later line it
has to be further in than the collection it belongs to.

The readers say how many characters they took.
-/

namespace TemplateLint.Yaml

open Text (charOf? charOfHex?)

/-- Whether a character is a blank within a line. -/
def isBlank (c : Char) : Bool := c = ' ' || c = '\t'

/-- Whether a text ends or has a blank or a line break at its front. -/
def atBlank : List Char → Bool
  | [] => true
  | c :: _ => isBlank c || c = '\n'

/-- Whether a text has a colon at its front that ends a key. -/
def atColon : List Char → Bool
  | ':' :: rest => atBlank rest
  | _ => false

/-- Whether a line that starts here begins or ends a document. -/
def atMarker (text : List Char) : Bool :=
  (text.take 3 = ['-', '-', '-'] || text.take 3 = ['.', '.', '.']) && atBlank (text.drop 3)

/-! ## Gaps -/

/-- What stands between two visible characters. -/
inductive Gap where
  /-- Blanks in a line, from the last one on. -/
  | blanks (reversed : List Char)
  /-- Line breaks, with the blanks around them. -/
  | breaks (count : Nat)
  /-- Line breaks behind one that was escaped. -/
  | joined (count : Nat)
  deriving DecidableEq, Repr, Inhabited

namespace Gap

/-- No gap. -/
def none : Gap := .blanks []

/-- The gap with one more blank. -/
def blank (c : Char) : Gap → Gap
  | .blanks reversed => .blanks (c :: reversed)
  | gap => gap

/-- The gap with one more line break. -/
def newline : Gap → Gap
  | .blanks _ => .breaks 1
  | .breaks count => .breaks (count + 1)
  | .joined count => .joined (count + 1)

/-- Whether a line was ended in the gap. -/
def hasBreak : Gap → Bool
  | .blanks _ => false
  | _ => true

/-- What the gap is folded to. -/
def text : Gap → List Char
  | .blanks reversed => reversed.reverse
  | .breaks 1 => [' ']
  | .breaks count => List.replicate (count - 1) '\n'
  | .joined count => List.replicate count '\n'

end Gap

/-! ## Quoted scalars -/

/-- A folded text in front of one that was read, with how many characters it was written in. -/
def prepend (front : List Char) (taken : Nat) : Option (List Char × Nat) → Option (List Char × Nat)
  | some (text, n) => some (front ++ text, n + taken)
  | none => none

/-- Reads a text between single quotes up to the closing one. Two quotes in a row stand for one. -/
def single (gap : Gap) : List Char → Option (List Char × Nat)
  | [] => none
  | '\x27' :: '\x27' :: rest => prepend (gap.text ++ ['\x27']) 2 (single .none rest)
  | '\x27' :: _ => some (gap.text, 1)
  | '\n' :: rest => if atMarker rest then none else prepend [] 1 (single gap.newline rest)
  | c :: rest =>
    if isBlank c then prepend [] 1 (single (gap.blank c) rest)
    else prepend (gap.text ++ [c]) 1 (single .none rest)

/-- The character that an escape letter stands for. -/
def escape? : Char → Option Char
  | '0' => some '\x00'
  | 'a' => some '\x07'
  | 'b' => some '\x08'
  | 't' | '\t' => some '\t'
  | 'n' => some '\n'
  | 'v' => some '\x0b'
  | 'f' => some '\x0c'
  | 'r' => some '\r'
  | 'e' => some '\x1b'
  | ' ' => some ' '
  | '"' => some '"'
  | '/' => some '/'
  | '\\' => some '\\'
  | 'N' => charOf? 0x85
  | '_' => charOf? 0xA0
  | 'L' => charOf? 0x2028
  | 'P' => charOf? 0x2029
  | _ => none

/-- Reads what follows a backslash. The answer is a character and how many characters stand for it. -/
def escaped? : List Char → Option (Char × Nat)
  | 'x' :: rest => (charOfHex? (rest.take 2)).map (·, 3)
  | 'u' :: rest => (charOfHex? (rest.take 4)).map (·, 5)
  | 'U' :: rest => (charOfHex? (rest.take 8)).map (·, 9)
  | c :: _ => (escape? c).map (·, 1)
  | [] => none

/-- Reads a text between double quotes up to the closing one. -/
def double (gap : Gap) : List Char → Option (List Char × Nat)
  | [] => none
  | c :: rest =>
    if c = '"' then some (gap.text, 1)
    else if c = '\n' then
      if atMarker rest then none else prepend [] 1 (double gap.newline rest)
    else if isBlank c then prepend [] 1 (double (gap.blank c) rest)
    else if c = '\\' then
      if rest.head? = some '\n' then prepend gap.text 2 (double (.joined 0) (rest.drop 1))
      else
        match escaped? rest with
        | some (char, taken) =>
          prepend (gap.text ++ [char]) (taken + 1) (double .none (rest.drop taken))
        | none => none
    else prepend (gap.text ++ [c]) 1 (double .none rest)
termination_by text => text.length

/-! ## Plain scalars -/

/-- Whether a character has a meaning between brackets. -/
def isFlowMark (c : Char) : Bool := c ∈ [',', '[', ']', '\x7b', '\x7d']

/-- Whether a plain scalar ends before a visible character. -/
def endsPlain (bracketed : Bool) (indent column : Nat) (gap : Gap) (c : Char) (rest : List Char) :
    Bool :=
  (gap.hasBreak && ((!bracketed && column < indent) || (column = 0 && atMarker (c :: rest))))
    || (c = '#' && gap ≠ .none)
    || (c = ':' && atBlank rest)
    || (bracketed && isFlowMark c)

/-- Whether a visible character cannot stand in a plain scalar between brackets. -/
def breaksPlain (bracketed : Bool) (c : Char) (rest : List Char) : Bool :=
  bracketed && c = ':' && rest.head?.any fun next => next = '?' || isFlowMark next

/-- Reads a plain scalar at a column. Later lines have to start at the column `indent` or further in,
except between brackets. The count runs to the last visible character. -/
def plain (bracketed : Bool) (indent : Nat) (column : Nat) (gap : Gap) :
    List Char → Option (List Char × Nat)
  | [] => some ([], 0)
  | c :: rest =>
    let beyond (tail : Option (List Char × Nat)) : Option (List Char × Nat) :=
      tail.map fun (text, n) => if n = 0 then ([], 0) else (text, n + 1)
    if c = '\n' then beyond (plain bracketed indent 0 gap.newline rest)
    else if isBlank c then
      if c = '\t' && gap.hasBreak && column < indent then none
      else beyond (plain bracketed indent (column + 1) (gap.blank c) rest)
    else if endsPlain bracketed indent column gap c rest then some ([], 0)
    else if breaksPlain bracketed c rest then none
    else prepend (gap.text ++ [c]) 1 (plain bracketed indent (column + 1) .none rest)

end TemplateLint.Yaml
