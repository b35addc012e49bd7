/-!
# The shapes of arguments

An argument on the command line is told by its first characters. Two dashes begin a long option, which
may carry a value behind a sign; one dash begins a cluster of short options; two dashes alone divide
options from paths. Anything else is a word, and so is a single dash.
-/

namespace TemplateLint.CommandLine

/-- An argument by its shape. -/
inductive Argument where
  /-- Behind this one all arguments are paths. -/
  | separator
  | long (name : String) (value : Option String)
  | short (letters : List Char)
  | word (text : String)
  deriving DecidableEq, Repr, Inhabited

/-- A long option, from behind its dashes on. -/
def Argument.ofLong (text : List Char) : Argument :=
  let name := String.ofList (text.takeWhile (· ≠ '='))
  match text.dropWhile (· ≠ '=') with
  | [] => .long name none
  | _ :: value => .long name (some (String.ofList value))

/-- The shape of an argument. -/
def Argument.ofText (text : String) : Argument :=
  match text.toList with
  | ['-', '-'] => .separator
  | '-' :: '-' :: rest => .ofLong rest
  | '-' :: c :: rest => .short (c :: rest)
  | _ => .word text

end TemplateLint.CommandLine
