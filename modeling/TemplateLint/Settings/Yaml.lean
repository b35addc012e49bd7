import TemplateLint.Settings.Document
import TemplateLint.Settings.Yaml.Token
import TemplateLint.Text.Split

/-!
# YAML documents

The part of YAML that a flat config file needs: one mapping, by layout or between brackets, whose values
are scalars and lists of scalars. Nested collections, anchors, tags and block scalars have no place in a
config file, and a document with one of them is refused. A text without a document is an empty one.

A plain scalar is a text, and also a number or a truth value if it is spelled like one; a plain scalar
for nothing makes a value absent. In a list all scalars are texts.
-/

namespace TemplateLint.Yaml

open Text (number?)

/-! ## Characters -/

/-- Whether a character may stand in a document. -/
def isAllowed (c : Char) : Bool :=
  c ∈ ['\t', '\n', '\r', '\u0085'] || (' ' ≤ c && c ≤ '~') ||
    ('\u00a0' ≤ c && c ≠ '\ufeff' && c ≠ '\ufffe' && c ≠ '\uffff')

/-- The text with line feeds for all line breaks. -/
def normalizeBreaks : List Char → List Char
  | [] => []
  | '\r' :: '\n' :: rest => '\n' :: normalizeBreaks rest
  | c :: rest =>
    (if c ∈ ['\r', '\u0085', '\u2028', '\u2029'] then '\n' else c) :: normalizeBreaks rest

/-! ## Scalars -/

/-- Whether a plain scalar stands for nothing. -/
def isNothing (text : String) : Bool :=
  text ∈ ["", "~", "null", "Null", "NULL"]

/-- The natural number that a plain scalar spells. Zeros in front make it a text. -/
def natural? (text : String) : Option Nat :=
  let unsigned :=
    match text.toList with
    | '+' :: rest => rest
    | all => all
  match unsigned with
  | '0' :: 'x' :: digits => number? 16 digits
  | '0' :: 'o' :: digits => number? 8 digits
  | '0' :: 'b' :: digits => number? 2 digits
  | '0' :: _ :: _ => none
  | digits => number? 10 digits

/-- The truth value that a plain scalar spells. -/
def truth? (text : String) : Option Bool :=
  if text ∈ ["true", "True", "TRUE"] then some true
  else if text ∈ ["false", "False", "FALSE"] then some false
  else none

/-- The value of a plain scalar. -/
def valueOfPlain (text : String) : Value :=
  if isNothing text then .absent
  else .single { text := some text, number := (natural? text).map Int.ofNat, flag := truth? text }

/-! ## Structure -/

/-- The text of a scalar. -/
def textOf? : Token → Option String
  | .plain text | .quoted text => some text
  | _ => none

/-- The items of a list by layout. An item may be empty. -/
def layoutItems? : List Token → Option (List String)
  | [] => some []
  | .dash :: .plain text :: rest | .dash :: .quoted text :: rest =>
    (layoutItems? rest).map (text :: ·)
  | .dash :: rest => (layoutItems? rest).map ("" :: ·)
  | _ => none

/-- The items of a list between brackets, up to its end. An item may stand at the front and after a
comma. -/
def bracketItems? (mayStart : Bool) : List Token → Option (List String)
  | [.closeList] => some []
  | .comma :: rest => if mayStart then none else bracketItems? true rest
  | .plain text :: rest | .quoted text :: rest =>
    if mayStart then (bracketItems? false rest).map (text :: ·) else none
  | _ => none

/-- The value that tokens make up. -/
def value? : List Token → Option Value
  | [] => some .absent
  | [.plain text] => some (valueOfPlain text)
  | [.quoted text] => some (.ofText text)
  | .openList :: rest => (bracketItems? true rest).map .list
  | .listStart :: rest =>
    if rest.getLast? = some .layoutEnd then (layoutItems? rest.dropLast).map .list else none
  | .dash :: rest => (layoutItems? (.dash :: rest)).map .list
  | _ => none

/-- The key and the value of an entry, from the key's text on. -/
def entry? : List Token → Option (String × Value)
  | scalar :: .colon :: rest => do return (← textOf? scalar, ← value? rest)
  | _ => none

/-- Tokens between the places where a key begins. -/
def cutAtKeys : List Token → List (List Token)
  | [] => [[]]
  | .key :: rest => [] :: cutAtKeys rest
  | token :: rest =>
    match cutAtKeys rest with
    | [] => [[token]]
    | first :: others => (token :: first) :: others

/-- Tokens between the commas that are not inside a list. -/
def cutAtCommas (inside : Bool) : List Token → List (List Token)
  | [] => [[]]
  | token :: rest =>
    if token = .comma && !inside then [] :: cutAtCommas inside rest
    else
      match cutAtCommas (token = .openList || (inside && token ≠ .closeList)) rest with
      | [] => [[token]]
      | first :: others => (token :: first) :: others

/-- The entry between two commas. A key may stand alone. -/
def bracketEntry? : List Token → Option (String × Value)
  | .key :: rest => entry? rest
  | [scalar] => (textOf? scalar).map (·, .absent)
  | _ => none

/-- The entries of a mapping between brackets. The last comma may have nothing behind it. -/
def bracketEntries? (tokens : List Token) : Option Document :=
  let entries := cutAtCommas false tokens
  let entries := if entries.getLast? = some [] then entries.dropLast else entries
  entries.mapM bracketEntry?

/-- The mapping that tokens make up. -/
def mapping? : List Token → Option Document
  | [] => some []
  | .mapStart :: .key :: rest =>
    if rest.getLast? = some .layoutEnd then (cutAtKeys rest.dropLast).mapM entry? else none
  | .openMap :: rest =>
    if rest.getLast? = some .closeMap then bracketEntries? rest.dropLast else none
  | _ => none

/-- Tokens without the lines at their end that end a document. -/
def dropEnds (tokens : List Token) : List Token :=
  (tokens.reverse.dropWhile (· = .documentEnd)).reverse

/-- The tokens between the lines that begin and end a document. A document that was not begun cannot be
ended. -/
def content : List Token → List Token
  | .documentStart :: body => dropEnds body
  | .documentEnd :: rest => .documentEnd :: rest
  | body => dropEnds body

/-- The document in a text, if it has one and no more. A mark of the byte order may stand in front. -/
def read? (text : String) : Option Document := do
  let chars := text.toList
  let body := if chars.head? = some '\ufeff' then chars.tail else chars
  if body.all isAllowed then mapping? (content (← tokens (normalizeBreaks body))) else none

end TemplateLint.Yaml
