import TemplateLint.CommandLine.Argument
import TemplateLint.CommandLine.LintOption

/-!
# Command lines

A command line names a command, and the command `lint` has options and paths. Arguments are read from
the front and the first mistake decides. The value of an option may be an argument of its own; such an
option is pending, and it is settled only when the next argument turns out to be one that is known. An
unknown argument is reported in preference to a mistake in a pending option.

A value that is an argument of its own cannot begin with a dash, unless it is the dash alone. A value
behind a sign can be any text.
-/

namespace TemplateLint

namespace CommandLine

/-- What the program is asked to do. -/
inductive Command where
  | version
  | rulesets
  | lint (given : LintArgs)
  deriving DecidableEq, Repr, Inhabited

/-- The names of the commands. -/
def commandNames : List String := ["version", "rulesets", "lint", "help"]

/-! ## Options and paths of a lint run -/

/-- An option whose value is not settled. -/
structure Pending where
  field : Field
  value : Option String := none
  deriving DecidableEq, Repr, Inhabited

/-- What was read so far. -/
structure Progress where
  given : LintArgs := {}
  pending : Option Pending := none
  deriving DecidableEq, Repr, Inhabited

namespace Progress

/-- Settles the pending option. -/
def settle (progress : Progress) : Except UsageError LintArgs :=
  match progress.pending with
  | none => .ok progress.given
  | some ⟨_, none⟩ => .error .missingValue
  | some ⟨field, some value⟩ => field.assign progress.given value

/-- Reads an option whose value may come in the next argument. -/
def valued (progress : Progress) (field : Field) (value : Option String) :
    Except UsageError Progress := do
  let given ← progress.settle
  match value with
  | none => return { given, pending := some { field } }
  | some value => return { given := ← field.assign given value }

/-- Reads an option that takes no value. -/
def switch (progress : Progress) (asksForHelp : Bool) : Except UsageError Progress := do
  let given ← progress.settle
  if asksForHelp then throw .helpRequested
  else if given.throwSyntaxErrors then throw .repeatedOption
  else return { given := { given with throwSyntaxErrors := true } }

/-- Reads a long option. -/
def long (progress : Progress) (name : String) (value : Option String) :
    Except UsageError Progress :=
  match LintOption.ofName? name with
  | none => .error .unknownArgument
  | some (.valued field) => progress.valued field value
  | some option => if value.isSome then .error .unexpectedValue else progress.switch (option = .help)

/-- The value that stands behind a letter in its cluster. -/
def attached : List Char → Option String
  | [] => none
  | '=' :: value => some (String.ofList value)
  | value => some (String.ofList value)

/-- Reads a cluster of short options. The first one that takes a value ends it. -/
def short (progress : Progress) : List Char → Except UsageError Progress
  | [] => .ok progress
  | letter :: rest =>
    match LintOption.ofLetter? letter with
    | none => .error .unknownArgument
    | some (.valued field) => progress.valued field (attached rest)
    | some option => do (← progress.switch (option = .help)).short rest

/-- Reads a word, which is the value of a pending option without one, and else a path. -/
def word (progress : Progress) (text : String) : Except UsageError Progress :=
  match progress.pending with
  | some ⟨field, none⟩ => .ok { progress with pending := some ⟨field, some text⟩ }
  | _ => do
    let given ← progress.settle
    return { given := { given with paths := given.paths ++ [text] } }

end Progress

/-- Reads the arguments of a lint run. -/
def readLint (progress : Progress) : List String → Except UsageError LintArgs
  | [] => progress.settle
  | arg :: rest =>
    match Argument.ofText arg with
    | .separator => do
      let given ← progress.settle
      return { given with paths := given.paths ++ rest }
    | .long name value => do readLint (← progress.long name value) rest
    | .short letters => do readLint (← progress.short letters) rest
    | .word text => do readLint (← progress.word text) rest

/-! ## Commands -/

/-- Reads an option that only asks for help or, where it is offered, for the version. -/
def inquiry (offersVersion : Bool) : Argument → UsageError
  | .long "help" none => .helpRequested
  | .long "help" (some _) => .unexpectedValue
  | .long "version" value =>
    if !offersVersion then .unknownArgument
    else if value.isSome then .unexpectedValue
    else .versionRequested
  | .short ('h' :: _) => .helpRequested
  | .short ('V' :: _) => if offersVersion then .versionRequested else .unknownArgument
  | _ => .unknownArgument

/-- Reads the arguments of a command that has no use for any. -/
def readNothing (command : Command) : List String → Except UsageError Command
  | [] | ["--"] => .ok command
  | arg :: _ => .error (inquiry false (.ofText arg))

/-- Reads the name of the command that help is asked for. -/
def readHelp : List String → UsageError
  | [] => .helpRequested
  | [name] => if name ∈ commandNames then .helpRequested else .unknownCommand
  | _ => .unknownCommand

/-- Reads what stands in place of a command. -/
def readOther (arg : String) (rest : List String) : UsageError :=
  match Argument.ofText arg, rest with
  | .separator, [] => .missingCommand
  | .separator, name :: _ => if name ∈ commandNames then .unknownArgument else .unknownCommand
  | .word _, _ => .unknownCommand
  | option, _ => inquiry true option

/-- The command that arguments name, without the name of the program. -/
def read : List String → Except UsageError Command
  | [] => .error .missingCommand
  | "version" :: rest => readNothing .version rest
  | "rulesets" :: rest => readNothing .rulesets rest
  | "lint" :: rest => (readLint {} rest).map .lint
  | "help" :: rest => .error (readHelp rest)
  | arg :: rest => .error (readOther arg rest)

end CommandLine

end TemplateLint
