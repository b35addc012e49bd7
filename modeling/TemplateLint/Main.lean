import TemplateLint.Program

/-!
# The executable

What the program does is a function of its command line and a file system, so all that is left here is
to take a picture of the disk, to call that function and to write what it leaves. The picture holds what
a command can come to look at: the ancestors of the project root with their markers, and everything
below the requested paths. Of the files only the config files and the templates are read. What the disk
does not let be read is in the picture as such.

The disk tells its names here as texts, so entries whose names are none are not in the picture.
-/

namespace TemplateLint.Disk

/-- Why the disk refuses something. -/
def reasonOf : IO.Error → FileError
  | .noFileOrDirectory .. => .missing
  | .permissionDenied .. => .denied
  | error => .other error.toString

/-- What stands at a place of the disk. Files are taken without their content, and links lead to where
they end. -/
def entryAt (place : Place) : IO (Except FileError Entry) := do
  let file := (← IO.currentDir) / Utf8.lossy place.path
  try
    match (← file.symlinkMetadata).type with
    | .dir => return .ok .directory
    | .file => return .ok (.file .empty)
    | .symlink => return .ok (.link (← IO.FS.realPath file).toString)
    | .other => return .ok (.special .empty)
  catch error => return .error (reasonOf error)

/-- The picture in which nothing leads through a directory, if that is why something was not seen. -/
def closeIf (fs : FileSystem) (here : Place) (reason : FileError) : FileSystem :=
  if reason = .denied then { fs with closed := here :: fs.closed } else fs

/-- The picture with the entries along names, none of which is a link. -/
def lookDown (fs : FileSystem) (here : Place) : List RawPath → IO FileSystem
  | [] => return fs
  | name :: rest => do
    let spot := here ++ [name]
    match ← entryAt spot with
    | .ok entry => lookDown (fs.set spot entry) spot rest
    | .error reason => return closeIf fs here reason

/-- The picture with the entries along steps, and the place that was reached. -/
def lookAlong (fs : FileSystem) (here : Place) : List RawPath → IO (FileSystem × Place)
  | [] => return (fs, here)
  | step :: rest => do
    if step = ".." then lookAlong fs here.dropLast rest
    else if FileSystem.isIdle step then lookAlong fs here rest
    else
      let spot := here ++ [step]
      match ← entryAt spot with
      | .error reason => return (closeIf fs here reason, spot)
      | .ok (.link target) =>
        let place := Path.parts target
        lookAlong (← lookDown (fs.set spot (.link target)) [] place) place rest
      | .ok entry => lookAlong (fs.set spot entry) spot rest

/-- The picture with the entries on the way along a path, and the place that was reached. -/
def lookAt (fs : FileSystem) (path : RawPath) : IO (FileSystem × Place) :=
  lookAlong fs (FileSystem.origin path fs.workingDirectory) (FileSystem.steps path)

/-- The names that the disk has below a place. -/
def namesAt (place : Place) : IO (Except FileError (List RawPath)) := do
  let directory := (← IO.currentDir) / Utf8.lossy place.path
  try
    return .ok ((← directory.readDir).toList.map fun entry => Utf8.encode entry.fileName)
  catch error => return .error (reasonOf error)

/-- The picture with everything below a place. Directories that links lead to are looked at once. -/
partial def lookBelow (fs : FileSystem) (visited : List Place) (place : Place) :
    IO (FileSystem × List Place) := do
  if place ∈ visited || !fs.isDirectoryAt place then return (fs, visited)
  let mut fs := fs
  let mut visited := place :: visited
  match ← namesAt place with
  | .error reason => return (fs.refuse place reason, visited)
  | .ok names =>
    for name in names do
      let (seen, reached) ← lookAlong fs place [name]
      (fs, visited) ← lookBelow seen visited reached
    return (fs, visited)

/-- The picture with the content of what a path leads to, if that is no directory. -/
def readInto (fs : FileSystem) (path : RawPath) : IO FileSystem := do
  match fs.resolve path with
  | .error _ => return fs
  | .ok place =>
    let fill (entry : ByteArray → Entry) : IO FileSystem := do
      try return fs.set place (entry (← IO.FS.readBinFile (Utf8.lossy place.path)))
      catch error => return fs.refuse place (reasonOf error)
    match fs.entry? place with
    | some (.file _) => fill .file
    | some (.special _) => fill .special
    | _ => return fs

/-- The picture with the markers of projects, from where their search starts. -/
def lookForProject (fs : FileSystem) (overrides : Overrides) : IO FileSystem := do
  let written : RawPath := overrides.projectRoot.getD "."
  let mut fs := (← lookAt fs written).1
  for directory in Path.ancestors (Settings.start fs overrides) do
    fs := (← lookAt fs (Path.join directory ".git")).1
    for name in ConfigFile.names do
      let path := Path.join directory name
      fs ← readInto (← lookAt fs path).1 path
  return fs

/-- The picture with the templates that settings ask for. -/
def lookForTemplates (fs : FileSystem) (settings : Settings) : IO FileSystem := do
  let mut fs := fs
  let mut visited := []
  for path in settings.paths do
    let (seen, place) ← lookAt fs path
    (fs, visited) ← lookBelow seen visited place
  match discover fs settings.paths settings.exclude settings.extensions with
  | .error _ => return fs
  | .ok groups =>
    for file in groups.flatMap PathGroup.files do
      fs ← readInto fs file.realPath
    return fs

/-- The picture for a command line. -/
def pictureFor (args : List String) : IO FileSystem := do
  match CommandLine.read args with
  | .ok (.lint given) =>
    let here := Path.parts (← IO.currentDir).toString
    let overrides := given.toOverrides
    let fs ← lookForProject (← lookDown { workingDirectory := here } [] here) overrides
    match Settings.resolve .flat fs overrides with
    | .error _ => return fs
    | .ok settings => lookForTemplates fs settings
  | _ => return {}

/-- Writes what a command leaves. -/
def deliver (color : Bool) (left : Completion) : IO UInt32 := do
  let output ← IO.getStdout
  try
    output.write left.output
    output.flush
    (← IO.getStderr).putStr left.errors
    return left.exitCode.toUInt32
  catch error =>
    let broken := Program.stopped color .empty (Failure.unwritable error.toString).message
    (← IO.getStderr).putStr broken.errors
    return broken.exitCode.toUInt32

end TemplateLint.Disk

/-- Carries out the command line and gives the exit code. Files are read one after the other, so the
first failure is the one that is reported. -/
def main (args : List String) : IO UInt32 := do
  let color := (← IO.getEnv "NO_COLOR").isNone
  let fs ← TemplateLint.Disk.pictureFor args
  TemplateLint.Disk.deliver color (TemplateLint.Program.answer .flat fs 0 color args)
