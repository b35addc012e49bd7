import TemplateLint.Files.Walk
import TemplateLint.Template.Source
import TemplateLint.Text.Utf8

/-!
# Finding templates

A requested path that is a file is taken as it is. One that is a directory is searched, at any depth,
for files with one of the extensions, except in excluded folders. One that is neither is passed over.
The files found for one request are a group, sorted by the steps of their paths; groups come in the
order of the requests, and a path requested twice has one group.

A file has two paths. The real path is where it was found, below the canonical path of the request. The
display path is the request as it was written with the rest of the real path behind it. Real paths are
bytes and display paths are texts, so what is no text in a name is shown by replacement characters, and so
it is in the pattern that a directory is searched with.
-/

namespace TemplateLint

/-- A template on the disk. -/
structure DiscoveredFile where
  realPath : RawPath
  displayPath : String
  deriving DecidableEq, Repr, Inhabited

/-- The templates found for one requested path. -/
structure PathGroup where
  requested : String
  files : List DiscoveredFile
  deriving DecidableEq, Repr, Inhabited

namespace Discovery

open FileSystem (matching)

/-- The pattern for files with an extension anywhere below a directory. -/
def templatePattern (root : RawPath) (ext : String) : String :=
  Pattern.escape (Utf8.lossy root) ++ "/**/*." ++ String.ofList (ext.toList.dropWhile (· == '.'))

/-- The files with an extension anywhere below a directory. -/
def withExtension (fs : FileSystem) (root : RawPath) (ext : String) :
    Except Failure (List RawPath) :=
  let pattern := templatePattern root ext
  match Pattern.compile pattern with
  | .error e => .error (.setting (.invalidPattern pattern e.message))
  | .ok glob => .ok ((fs.matching glob).filter fs.isFile)

/-- Whether a file is in an excluded folder, given the steps from the searched directory to it. An
exclusion names a folder at any depth, or a path of folders from the searched directory on. -/
def isExcluded (exclude : List String) (steps : List Path.Component) : Bool :=
  let folders := steps.dropLast
  exclude.any fun entry =>
    let entry : RawPath := Path.trim entry
    entry ≠ [] && ((Path.components entry).isPrefixOf folders || folders.contains (.name entry))

/-- A list without the elements that repeat the one before them. -/
def dropRepeats (same : RawPath → RawPath → Bool) : List RawPath → List RawPath
  | [] => []
  | [path] => [path]
  | a :: b :: rest =>
    if same a b then dropRepeats same (a :: rest) else a :: dropRepeats same (b :: rest)
termination_by paths => paths.length

/-- The steps that lead from one list of steps to another one: up to where they part, and down. -/
def stepsBetween : List Path.Component → List Path.Component → List Path.Component
  | a :: base, b :: path =>
    if a = b then stepsBetween base path
    else List.replicate (base.length + 1) .parent ++ b :: path
  | base, path => List.replicate base.length .parent ++ path

/-- The steps from a directory to a path. -/
def stepsFrom (root path : RawPath) : List Path.Component :=
  stepsBetween (Path.components root) (Path.components path)

/-- The path that is shown for a file found by searching a requested directory. -/
def displayPath (requested : String) (steps : List Path.Component) : String :=
  Path.trimEnd requested ++ "/" ++ "/".intercalate (steps.map fun step => Utf8.lossy step.bytes)

/-- The files below a requested directory. -/
def scan (fs : FileSystem) (requested : String) (exclude extensions : List String) :
    Except Failure (List DiscoveredFile) := do
  let root ← (fs.canonical requested).mapError (Failure.unreadable requested)
  let found ← extensions.mapM (withExtension fs root)
  let paths := dropRepeats Path.same (found.flatten.mergeSort Path.le)
  let kept := paths.filter fun path => !isExcluded exclude (stepsFrom root path)
  return kept.map fun path => ⟨path, displayPath requested (stepsFrom root path)⟩

/-- The files for one requested path. -/
def filesFor (fs : FileSystem) (requested : String) (exclude extensions : List String) :
    Except Failure (List DiscoveredFile) :=
  if fs.isFile requested then do
    let real ← (fs.canonical requested).mapError (Failure.unreadable requested)
    return [⟨real, requested⟩]
  else if fs.isDirectory requested then scan fs requested exclude extensions
  else .ok []

/-- The files of a group with those of more files that it does not have. -/
def addMissing (known more : List DiscoveredFile) : List DiscoveredFile :=
  more.foldl (fun known file =>
    if known.any fun other => Path.same other.realPath file.realPath then known
    else known ++ [file]) known

/-- Groups with the files found for one more request. -/
def addGroup (requested : String) (files : List DiscoveredFile) : List PathGroup → List PathGroup
  | [] => [⟨requested, files⟩]
  | group :: rest =>
    if group.requested = requested then ⟨requested, addMissing group.files files⟩ :: rest
    else group :: addGroup requested files rest

end Discovery

/-- The templates for requested paths, in groups. -/
def discover (fs : FileSystem) (paths exclude extensions : List String) :
    Except Failure (List PathGroup) :=
  paths.foldlM (fun groups requested => do
    let files ← Discovery.filesFor fs requested exclude extensions
    return if files.isEmpty then groups else Discovery.addGroup requested files groups) []

/-- A template with its content. -/
def loadFile (fs : FileSystem) (file : DiscoveredFile) : Except Failure Source :=
  match fs.read file.realPath with
  | .ok content => .ok ⟨Utf8.decodeLossy content, file.realPath, file.displayPath⟩
  | .error e => .error (.unreadable file.realPath e)

/-- What went wrong, in order. -/
def failures {ε α : Type} (results : List (Except ε α)) : List ε :=
  results.filterMap fun
    | .error e => some e
    | .ok _ => none

/-- The templates of groups with their contents, in order. The files are read side by side, so of several
failures any one may be the one that is reported: which one it is, `race` says. -/
def loadSources (fs : FileSystem) (race : Nat) (groups : List PathGroup) :
    Except Failure (List Source) :=
  let files := groups.flatMap PathGroup.files
  let failed := failures (files.map (loadFile fs))
  match failed[race % failed.length]? with
  | some failure => .error failure
  | none => files.mapM (loadFile fs)

end TemplateLint
