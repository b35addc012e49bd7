import TemplateLint.Files.FileSystem
import TemplateLint.Settings.Toml
import TemplateLint.Settings.Yaml
import TemplateLint.Text.Utf8

/-!
# Config files

A config file gives some of the settings of a run. It may leave out any of them, but it cannot give one
twice, give one a value of the wrong type, or give one that does not exist: a misspelled key is an
error, not a setting without effect. Of several config files in a directory the first one by the order
of `ConfigFile.candidates` counts, and the others are not looked at.

How a text is read is not settled here: each format has a library of its own for that, and what it makes
of a text is a parameter, the `ConfigParser`. The one that the program is built with here,
`ConfigParser.flat`, reads what config files look like and refuses the rest of the formats.
-/

namespace TemplateLint

/-- The settings that a config file gives. -/
structure ConfigFile where
  paths : Option (List String) := none
  exclude : Option (List String) := none
  extensions : Option (List String) := none
  severity : Option String := none
  display : Option String := none
  reporter : Option String := none
  ruleset : Option String := none
  languageVersion : Option UInt8 := none
  throwSyntaxErrors : Option Bool := none
  deriving DecidableEq, Repr, Inhabited

/-- The formats of config files. -/
inductive ConfigFile.Format where
  | toml
  | yaml
  deriving DecidableEq, Repr, Inhabited

/-- How texts are read as config files. A text that is none is refused with a reason in words. -/
abbrev ConfigParser := ConfigFile.Format → String → Except String ConfigFile

/-- What is wrong with a config file. -/
inductive ConfigFault where
  | unreadable (error : FileError)
  | notText
  | rejected (reason : String)
  deriving DecidableEq, Repr, Inhabited

/-- What is wrong with a config file, in words. -/
def ConfigFault.message : ConfigFault → String
  | .unreadable error => error.message
  | .notText => "stream did not contain valid UTF-8"
  | .rejected reason => reason

namespace ConfigFile

/-! ## Files -/

/-- The names of config files with their formats; the first one that is present counts. -/
def candidates : List (String × Format) :=
  [("tmplint.toml", .toml), ("tmplint.yaml", .yaml), ("tmplint.yml", .yaml)]

/-- The names of config files. -/
def names : List String := candidates.map Prod.fst

/-- The settings in a file. -/
def read (parser : ConfigParser) (fs : FileSystem) (path : RawPath) (format : Format) :
    Except ConfigFault ConfigFile :=
  match fs.read path with
  | .error error => .error (.unreadable error)
  | .ok bytes =>
    match Utf8.decode? bytes with
    | none => .error .notText
    | some text => (parser format text).mapError .rejected

/-- The config file of a directory, if it has one, with its path. -/
def load (parser : ConfigParser) (fs : FileSystem) (directory : RawPath) :
    Except SettingError (Option (RawPath × ConfigFile)) :=
  match candidates.find? fun (name, _) => fs.isPresent (Path.join directory name) with
  | none => .ok none
  | some (name, format) =>
    let path := Path.join directory name
    match read parser fs path format with
    | .ok file => .ok (some (path, file))
    | .error fault => .error (.invalidConfigFile path fault.message)

end ConfigFile

/-! ## Flat documents -/

/-- What is wrong with a document. -/
inductive DocumentFault where
  | malformed
  | unknownKey (key : String)
  | repeatedKey (key : String)
  | wrongValue (key : String)
  deriving DecidableEq, Repr, Inhabited

/-- What is wrong with a document, in words. -/
def DocumentFault.message : DocumentFault → String
  | .malformed => "not a flat document"
  | .unknownKey key => s!"unknown field '{key}'"
  | .repeatedKey key => s!"duplicate field '{key}'"
  | .wrongValue key => s!"invalid value for '{key}'"

namespace Value

/-- The list of texts that a value is, or nothing if it is absent. -/
def texts (key : String) : Value → Except DocumentFault (Option (List String))
  | .absent => .ok none
  | .list items => .ok (some items)
  | .single _ => .error (.wrongValue key)

/-- The text that a value is, or nothing if it is absent. -/
def text (key : String) : Value → Except DocumentFault (Option String)
  | .absent => .ok none
  | .single { text := some text, .. } => .ok (some text)
  | _ => .error (.wrongValue key)

/-- The truth value that a value is, or nothing if it is absent. -/
def flag (key : String) : Value → Except DocumentFault (Option Bool)
  | .absent => .ok none
  | .single { flag := some flag, .. } => .ok (some flag)
  | _ => .error (.wrongValue key)

/-- The version number that a value is, or nothing if it is absent. Versions fit in a byte. -/
def version (key : String) : Value → Except DocumentFault (Option UInt8)
  | .absent => .ok none
  | .single { number := some number, .. } =>
    if 0 ≤ number ∧ number ≤ 255 then .ok (some number.toNat.toUInt8)
    else .error (.wrongValue key)
  | _ => .error (.wrongValue key)

end Value

namespace ConfigFile

/-- The settings with the one that a key names. -/
def assign (file : ConfigFile) (key : String) (value : Value) : Except DocumentFault ConfigFile := do
  match key with
  | "paths" => return { file with paths := ← value.texts key }
  | "exclude" => return { file with exclude := ← value.texts key }
  | "extensions" => return { file with extensions := ← value.texts key }
  | "severity" => return { file with severity := ← value.text key }
  | "display" => return { file with display := ← value.text key }
  | "reporter" => return { file with reporter := ← value.text key }
  | "ruleset" => return { file with ruleset := ← value.text key }
  | "language_version" => return { file with languageVersion := ← value.version key }
  | "throw_syntax_error" => return { file with throwSyntaxErrors := ← value.flag key }
  | _ => throw (.unknownKey key)

/-- The settings with those of a document, none of whose keys is a known one or repeated. -/
def assignAll (file : ConfigFile) (known : List String) : Document → Except DocumentFault ConfigFile
  | [] => .ok file
  | (key, value) :: rest =>
    if key ∈ known then .error (.repeatedKey key)
    else do (← file.assign key value).assignAll (key :: known) rest

/-- The settings that a document gives. -/
def ofDocument (document : Document) : Except DocumentFault ConfigFile :=
  assignAll {} [] document

/-- The document in a text. -/
def Format.read? : Format → String → Option Document
  | .toml => Toml.read?
  | .yaml => Yaml.read?

/-- The settings in a text. -/
def ofText (format : Format) (text : String) : Except DocumentFault ConfigFile :=
  match format.read? text with
  | some document => ofDocument document
  | none => .error .malformed

end ConfigFile

/-- The parser that reads flat documents. -/
def ConfigParser.flat : ConfigParser :=
  fun format text => (ConfigFile.ofText format text).mapError DocumentFault.message

end TemplateLint
