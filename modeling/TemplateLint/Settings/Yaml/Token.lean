import TemplateLint.Settings.Yaml.Scalar

/-!
# YAML tokens

A document is cut into tokens from the front. Outside brackets the layout says where collections begin
and end: a mapping begins at its first key and a list at its first dash, and both end where a token
stands further out. These places become tokens too, so that the structure can be read without looking at
columns again.

That a scalar is a key is seen only at the colon behind it. Then tokens are put in front of the scalar,
which is why tokens are collected from the last one on. A key stands on one line, and it may come first
on its line, behind a dash, or behind a bracket or comma. What comes first on its line at the column of
the innermost mapping has to be a key.
-/

namespace TemplateLint.Yaml

/-- What a document is made of. -/
inductive Token where
  /-- The line that begins a document. -/
  | documentStart
  /-- The line that ends a document. -/
  | documentEnd
  /-- The place where a mapping begins by its layout. -/
  | mapStart
  /-- The place where a list begins by its layout. -/
  | listStart
  /-- The place where such a mapping or list ends. -/
  | layoutEnd
  /-- The place in front of a key. -/
  | key
  /-- The colon behind a key. -/
  | colon
  /-- The dash in front of an item. -/
  | dash
  | comma
  | openList
  | closeList
  | openMap
  | closeMap
  | plain (text : String)
  | quoted (text : String)
  deriving DecidableEq, Repr, Inhabited

/-- What is known in front of the rest of a text. -/
structure Cursor where
  column : Nat := 0
  /-- How many brackets are open. -/
  depth : Nat := 0
  /-- The columns of the mappings and lists by layout that are open, from the innermost on. -/
  layout : List Nat := []
  /-- Whether a key may begin here. -/
  keyAllowed : Bool := true
  /-- The column of the scalar just read, if it can be a key. -/
  candidate : Option Nat := none
  /-- The tokens so far, from the last one on. -/
  tokens : List Token := []
  deriving Repr, Inhabited

namespace Cursor

/-- Whether the text stands between brackets. -/
def isBracketed (cursor : Cursor) : Bool := cursor.depth ≠ 0

/-- The cursor with one more token. -/
def emit (cursor : Cursor) (token : Token) : Cursor :=
  { cursor with tokens := token :: cursor.tokens }

/-- Ends the mappings and lists that are further in than a column. -/
def closeBeyond (column : Nat) (cursor : Cursor) : Cursor :=
  let kept := cursor.layout.dropWhile (column < ·)
  let ended := cursor.layout.length - kept.length
  { cursor with
    layout := kept
    tokens := List.replicate ended .layoutEnd ++ cursor.tokens }

/-- Ends all mappings and lists. -/
def closeAll (cursor : Cursor) : Cursor :=
  { cursor with
    layout := []
    tokens := List.replicate cursor.layout.length .layoutEnd ++ cursor.tokens }

/-- Whether a mapping or list at a column is further in than those that are open. -/
def isDeeper (column : Nat) (cursor : Cursor) : Bool :=
  match cursor.layout with
  | [] => true
  | innermost :: _ => innermost < column

/-- Where the later lines of a plain scalar have to start. -/
def indent (cursor : Cursor) : Nat :=
  match cursor.layout with
  | [] => 0
  | innermost :: _ => innermost + 1

/-- Whether only a key may stand here. -/
def needsKey (cursor : Cursor) : Bool :=
  cursor.keyAllowed && !cursor.isBracketed && cursor.layout.head? = some cursor.column

/-- The cursor behind characters. A key has to end on the line it began on. -/
def advance (taken : List Char) (cursor : Cursor) : Cursor :=
  taken.foldl (fun before c =>
    if c = '\n' then { before with column := 0, candidate := none }
    else { before with column := before.column + 1 }) cursor

/-- The cursor behind a token that is no scalar. -/
def mark (cursor : Cursor) (token : Token) (keyAllowed : Bool) : Cursor :=
  { cursor.emit token with keyAllowed, candidate := none }

/-- The cursor behind an opening bracket. -/
def opening? (cursor : Cursor) (token : Token) : Option Cursor :=
  if cursor.needsKey then none else some ({ cursor with depth := cursor.depth + 1 }.mark token true)

/-- The cursor behind a closing bracket. -/
def closing (cursor : Cursor) (token : Token) : Cursor :=
  { cursor with depth := cursor.depth - 1 }.mark token false

/-- The cursor with a scalar, in front of the rest of the text. -/
def scalar? (cursor : Cursor) (token : Token) (rest : List Char) : Option Cursor :=
  if cursor.needsKey && !atColon (rest.dropWhile isBlank) then none
  else
    some { cursor.emit token with
      keyAllowed := false
      candidate := if cursor.keyAllowed then some cursor.column else none }

/-- The cursor with a dash. -/
def dash? (cursor : Cursor) : Option Cursor :=
  if cursor.isBracketed || !cursor.keyAllowed then none
  else if cursor.isDeeper cursor.column then
    some { (cursor.emit .listStart).mark .dash true with layout := cursor.column :: cursor.layout }
  else some (cursor.mark .dash true)

/-- The cursor with a colon, which turns the scalar before it into a key. -/
def colon? (cursor : Cursor) : Option Cursor :=
  match cursor.candidate, cursor.tokens with
  | some column, scalar :: before =>
    if !cursor.isBracketed && cursor.isDeeper column then
      some { cursor with
        layout := column :: cursor.layout
        keyAllowed := false
        candidate := none
        tokens := .colon :: scalar :: .key :: .mapStart :: before }
    else
      some { cursor with
        keyAllowed := false
        candidate := none
        tokens := .colon :: scalar :: .key :: before }
  | _, _ => none

end Cursor

/-- Whether a character cannot begin a plain scalar. -/
def isIndicator (c : Char) : Bool :=
  isBlank c || isFlowMark c ||
    c ∈ ['-', '?', ':', '#', '&', '*', '!', '|', '>', '\x27', '"', '%', '@', '\x60']

/-- Whether a plain scalar begins with a character. -/
def startsPlain (bracketed : Bool) (c : Char) (rest : List Char) : Bool :=
  !isIndicator c || (c = '-' && !atBlank rest) ||
    (!bracketed && (c = '?' || c = ':') && !atBlank rest)

/-- Reads a scalar whose first character is given. The answer says how many characters it has after that
one. -/
def scalarToken? (cursor : Cursor) (c : Char) (rest : List Char) : Option (Token × Nat) :=
  if c = '\x27' then
    (single .none rest).map fun (text, n) => (.quoted (String.ofList text), n)
  else if c = '"' then
    (double .none rest).map fun (text, n) => (.quoted (String.ofList text), n)
  else if startsPlain cursor.isBracketed c rest then
    (plain cursor.isBracketed cursor.indent (cursor.column + 1) .none rest).map fun (text, n) =>
      (.plain (String.ofList (c :: text)), n)
  else none

/-- Reads a token whose first character is given. The answer says how many characters it has after that
one. -/
def token? (cursor : Cursor) (c : Char) (rest : List Char) : Option (Cursor × Nat) :=
  if cursor.column = 0 && atMarker (c :: rest) then
    some (cursor.closeAll.mark (if c = '-' then .documentStart else .documentEnd) false, 2)
  else if c = '[' then (cursor.opening? .openList).map (·, 0)
  else if c = '\x7b' then (cursor.opening? .openMap).map (·, 0)
  else if c = ']' then some (cursor.closing .closeList, 0)
  else if c = '\x7d' then some (cursor.closing .closeMap, 0)
  else if c = ',' then some (cursor.mark .comma true, 0)
  else if c = '-' && atBlank rest then cursor.dash?.map (·, 0)
  else if c = ':' && (cursor.isBracketed || atBlank rest) then cursor.colon?.map (·, 0)
  else do
    let (token, n) ← scalarToken? cursor c rest
    return (← cursor.scalar? token (rest.drop n), n)

/-- The tokens of the rest of a text. Blanks, line breaks and comments make no token, but a tab cannot
stand where a key may begin. -/
def scan (cursor : Cursor) : List Char → Option (List Token)
  | [] => some cursor.closeAll.tokens.reverse
  | c :: rest =>
    if c = '\n' then
      scan { cursor.advance [c] with keyAllowed := cursor.keyAllowed || !cursor.isBracketed } rest
    else if c = ' ' || (c = '\t' && (cursor.isBracketed || !cursor.keyAllowed)) then
      scan (cursor.advance [c]) rest
    else if c = '#' then
      scan cursor (rest.drop (rest.takeWhile (· ≠ '\n')).length)
    else
      let placed := if cursor.isBracketed then cursor else cursor.closeBeyond cursor.column
      match token? placed c rest with
      | none => none
      | some (next, n) => scan (next.advance (c :: rest.take n)) (rest.drop n)
termination_by text => text.length

/-- The tokens of a text. -/
def tokens (text : List Char) : Option (List Token) := scan {} text

end TemplateLint.Yaml
