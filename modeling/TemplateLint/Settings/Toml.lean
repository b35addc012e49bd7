import TemplateLint.Settings.Document
import TemplateLint.Text.Digits

/-!
# TOML documents

The part of TOML that a flat config file needs: keys with texts, integers, truth values and lists of
texts. Tables, dotted keys, dates and decimal fractions have no place in a config file, and a document
with one of them is refused.

Reading goes in two steps. The text is cut into tokens, from which blanks and comments are gone. Then the
tokens are cut into statements, one for each line that is not inside a list, and each statement has to
have the shape of a key, a sign and a value.

The readers of quoted text say how many characters they took, so the rest is known to be shorter.
-/

namespace TemplateLint.Toml

open Text (charOfHex? number? spacedNumber?)

/-! ## Quoted text -/

/-- Whether a character may not stand in a text or a comment. -/
def isControl (c : Char) : Bool :=
  (c < ' ' && c ≠ '\t') || c = '\x7f'

/-- A character in front of a text that was read, with how many characters it was written in. -/
def cons (c : Char) (taken : Nat) : Option (List Char × Nat) → Option (List Char × Nat)
  | some (text, n) => some (c :: text, n + taken)
  | none => none

/-- The character that an escape letter stands for. -/
def escape? : Char → Option Char
  | 'b' => some '\x08'
  | 't' => some '\t'
  | 'n' => some '\n'
  | 'f' => some '\x0c'
  | 'r' => some '\r'
  | 'e' => some '\x1b'
  | '"' => some '"'
  | '\\' => some '\\'
  | _ => none

/-- Reads what follows a backslash. The answer is a character and how many characters stand for it. -/
def escaped? : List Char → Option (Char × Nat)
  | 'x' :: rest => (charOfHex? (rest.take 2)).map (·, 3)
  | 'u' :: rest => (charOfHex? (rest.take 4)).map (·, 5)
  | 'U' :: rest => (charOfHex? (rest.take 8)).map (·, 9)
  | c :: _ => (escape? c).map (·, 1)
  | [] => none

/-- Reads a text on one line up to its closing quote. Without escapes a backslash is a character like
any other. -/
def line (quote : Char) (escapes : Bool) : List Char → Option (List Char × Nat)
  | [] => none
  | c :: rest =>
    if c = quote then some ([], 1)
    else if isControl c then none
    else if c = '\\' && escapes then
      match escaped? rest with
      | some (char, taken) => cons char (taken + 1) (line quote escapes (rest.drop taken))
      | none => none
    else cons c 1 (line quote escapes rest)
termination_by text => text.length

/-- How many characters make up an escaped line break, which runs up to the next character that is not
blank. -/
def lineBreak? (text : List Char) : Option Nat :=
  let isBlank (c : Char) : Bool := c = ' ' || c = '\t'
  match text.dropWhile isBlank with
  | '\n' :: _ | '\r' :: '\n' :: _ =>
    some (text.takeWhile fun c => isBlank c || c = '\n' || c = '\r').length
  | _ => none

/-- How many quotes stand at the end of a text over several lines, if it ends here. Three of them close
the text, and one or two right before these belong to it. -/
def closing? (quote : Char) (text : List Char) : Option Nat :=
  let quotes := (text.takeWhile (· = quote)).length
  if quotes < 3 then none else if quotes ≤ 5 then some quotes else some 5

/-- Reads a text over several lines up to its closing quotes. -/
def lines (quote : Char) (escapes : Bool) : List Char → Option (List Char × Nat)
  | [] => none
  | c :: rest =>
    match closing? quote (c :: rest) with
    | some quotes => some (List.replicate (quotes - 3) quote, quotes)
    | none =>
      if c = '\r' && rest.head? = some '\n' then cons c 1 (lines quote escapes rest)
      else if isControl c && c ≠ '\n' then none
      else if c = '\\' && escapes then
        match lineBreak? rest, escaped? rest with
        | some taken, _ =>
          match lines quote escapes (rest.drop taken) with
          | some (text, n) => some (text, n + taken + 1)
          | none => none
        | none, some (char, taken) => cons char (taken + 1) (lines quote escapes (rest.drop taken))
        | none, none => none
      else cons c 1 (lines quote escapes rest)
termination_by text => text.length

/-- How long the line break at the front of a text is. -/
def breakLength : List Char → Nat
  | '\n' :: _ => 1
  | '\r' :: '\n' :: _ => 2
  | _ => 0

/-! ## Tokens -/

/-- What a document is made of. -/
inductive Token where
  | equals
  | comma
  | opening
  | closing
  | newline
  | text (content : String)
  /-- A text between three quotes, which cannot be a key. -/
  | longText (content : String)
  /-- Any run of characters that have no meaning of their own. -/
  | word (content : String)
  deriving DecidableEq, Repr, Inhabited

/-- Whether a character goes on with a word. -/
def isWordChar (c : Char) : Bool :=
  !(isControl c || c ∈ [' ', '\t', '=', ',', '[', ']', '\x7b', '\x7d', '#', '"', '\x27'])

/-- Reads quoted text whose first quote is given. -/
def quoted (quote : Char) (escapes : Bool) (rest : List Char) : Option (Token × Nat) :=
  if rest.take 2 = [quote, quote] then
    let skipped := 2 + breakLength (rest.drop 2)
    (lines quote escapes (rest.drop skipped)).map fun (text, n) =>
      (.longText (String.ofList text), n + skipped)
  else
    (line quote escapes rest).map fun (text, n) => (.text (String.ofList text), n)

/-- Reads a token whose first character is given. The answer says how many characters it has after
that one. Blanks and comments make no token. -/
def token? (c : Char) (rest : List Char) : Option (Option Token × Nat) :=
  match c with
  | ' ' | '\t' => some (none, 0)
  | '\n' => some (some .newline, 0)
  | '\r' => if rest.head? = some '\n' then some (some .newline, 1) else none
  | '#' =>
    let comment := rest.takeWhile fun c => !isControl c
    some (none, comment.length)
  | '=' => some (some .equals, 0)
  | ',' => some (some .comma, 0)
  | '[' => some (some .opening, 0)
  | ']' => some (some .closing, 0)
  | '"' => (quoted '"' true rest).map fun (token, n) => (some token, n)
  | '\x27' => (quoted '\x27' false rest).map fun (token, n) => (some token, n)
  | c =>
    if isWordChar c then
      let word := rest.takeWhile isWordChar
      some (some (.word (String.ofList (c :: word))), word.length)
    else none

/-- The tokens of a text. -/
def tokens : List Char → Option (List Token)
  | [] => some []
  | c :: rest =>
    match token? c rest with
    | none => none
    | some (token, n) => (tokens (rest.drop n)).map (token.toList ++ ·)
termination_by text => text.length

/-! ## Statements -/

/-- The tokens of each line. Lines do not end inside a list. -/
def statements (inside : Bool) : List Token → List (List Token)
  | [] => [[]]
  | .newline :: rest => if inside then statements inside rest else [] :: statements inside rest
  | token :: rest =>
    let inside := token = .opening || (inside && token ≠ .closing)
    match statements inside rest with
    | [] => [[token]]
    | first :: others => (token :: first) :: others

/-- The whole number that a word spells. -/
def integer? (word : String) : Option Int :=
  let unsigned (digits : List Char) : Option Nat :=
    if digits.head? = some '0' ∧ digits.length ≠ 1 then none else spacedNumber? 10 digits
  match word.toList with
  | '0' :: 'x' :: digits => (spacedNumber? 16 digits).map Int.ofNat
  | '0' :: 'o' :: digits => (spacedNumber? 8 digits).map Int.ofNat
  | '0' :: 'b' :: digits => (spacedNumber? 2 digits).map Int.ofNat
  | '+' :: digits => (unsigned digits).map Int.ofNat
  | '-' :: digits => (unsigned digits).map fun n => -Int.ofNat n
  | digits => (unsigned digits).map Int.ofNat

/-- The value that a word spells. -/
def valueOfWord? (word : String) : Option Value :=
  match word with
  | "true" => some (.single { flag := some true })
  | "false" => some (.single { flag := some false })
  | _ => (integer? word).map fun n => .single { number := some n }

/-- The texts of a list up to its end, which has to be the end of the statement as well. A text may stand
at the front and after a comma. -/
def items? (mayStart : Bool) : List Token → Option (List String)
  | [.closing] => some []
  | .comma :: rest => if mayStart then none else items? true rest
  | .text item :: rest | .longText item :: rest =>
    if mayStart then (items? false rest).map (item :: ·) else none
  | _ => none

/-- The value that the tokens behind the sign make up. -/
def value? : List Token → Option Value
  | [.text content] | [.longText content] => some (.ofText content)
  | [.word word] => valueOfWord? word
  | .opening :: rest => (items? true rest).map .list
  | _ => none

/-- The key and the value that a statement gives it. -/
def entry? : List Token → Option (String × Value)
  | .word key :: .equals :: rest | .text key :: .equals :: rest => (value? rest).map (key, ·)
  | _ => none

/-- The document in a text, if it has one. A mark of the byte order may stand in front. -/
def read? (text : String) : Option Document := do
  let chars := text.toList
  let body := if chars.head? = some '\ufeff' then chars.tail else chars
  ((statements false (← tokens body)).filter (!·.isEmpty)).mapM entry?

end TemplateLint.Toml
