import TemplateLint.Settings.ProjectRoot

/-!
# Settings

The settings of a run come from three places. What is given on the command line wins, then what the
config file of the project gives, then the defaults. An empty list on the command line gives nothing,
and the flag for syntax errors can only be switched on there.

The names in the settings are not checked here. Paths from the config file are meant relative to the
project root; they stay as they are written when that is the working directory, so that reports show
short paths.
-/

namespace TemplateLint

/-- What the command line gives. -/
structure Overrides where
  projectRoot : Option String := none
  paths : List String := []
  exclude : List String := []
  extensions : List String := []
  severity : Option String := none
  display : Option String := none
  reporter : Option String := none
  ruleset : Option String := none
  languageVersion : Option UInt8 := none
  throwSyntaxErrors : Bool := false
  deriving DecidableEq, Repr, Inhabited

/-- The settings of a run. -/
structure Settings where
  projectRoot : RawPath := "."
  configFile : Option RawPath := none
  paths : List String := ["."]
  exclude : List String := []
  extensions : List String := ["twig"]
  severity : String := "warning"
  display : String := "all"
  reporter : String := "console"
  ruleset : String := "official"
  languageVersion : UInt8 := 3
  throwSyntaxErrors : Bool := false
  deriving DecidableEq, Repr, Inhabited

namespace Settings

/-- A list, unless it is empty. -/
def given (items : List String) : Option (List String) :=
  if items.isEmpty then none else some items

/-- Whether a directory is the working directory, by the absolute paths of both. -/
def isHere (fs : FileSystem) (root : RawPath) : Bool :=
  match fs.canonical fs.workingDirectory.path with
  | .ok here => Path.same here root
  | .error _ => false

/-- A path from the config file of a project, as it is meant in the working directory. It is written as a
text again, whatever the project root is. -/
def rooted (fs : FileSystem) (root : RawPath) (path : String) : String :=
  if isHere fs root || Path.same root "." || Path.isAbsolute path then path
  else Utf8.lossy (Path.join root path)

/-- The settings from the command line, a config file and the defaults. The paths of the config file are
those that are meant in the working directory. -/
def merge (overrides : Overrides) (file : ConfigFile) : Settings :=
  let defaults : Settings := {}
  { projectRoot := defaults.projectRoot
    configFile := defaults.configFile
    paths := ((given overrides.paths).or file.paths).getD defaults.paths
    exclude := ((given overrides.exclude).or file.exclude).getD defaults.exclude
    extensions := ((given overrides.extensions).or file.extensions).getD defaults.extensions
    severity := (overrides.severity.or file.severity).getD defaults.severity
    display := (overrides.display.or file.display).getD defaults.display
    reporter := (overrides.reporter.or file.reporter).getD defaults.reporter
    ruleset := (overrides.ruleset.or file.ruleset).getD defaults.ruleset
    languageVersion :=
      (overrides.languageVersion.or file.languageVersion).getD defaults.languageVersion
    throwSyntaxErrors :=
      overrides.throwSyntaxErrors || file.throwSyntaxErrors.getD defaults.throwSyntaxErrors }

/-- Where the search for the project root starts: at an absolute path, if there is one, so that all
ancestors are seen. -/
def start (fs : FileSystem) (overrides : Overrides) : RawPath :=
  let written : RawPath := overrides.projectRoot.getD "."
  match fs.canonical written with
  | .ok path => path
  | .error _ => written

/-- The settings of a run in a file system. -/
def resolve (parser : ConfigParser) (fs : FileSystem) (overrides : Overrides) :
    Except SettingError Settings := do
  let root := ProjectRoot.detect fs (start fs overrides)
  match ← ConfigFile.load parser fs root with
  | none => return { merge overrides {} with projectRoot := root }
  | some (path, file) =>
    let file := { file with paths := file.paths.map (List.map (rooted fs root)) }
    return { merge overrides file with projectRoot := root, configFile := some path }

end Settings

end TemplateLint
