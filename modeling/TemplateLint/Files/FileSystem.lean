import TemplateLint.Failure
import TemplateLint.Files.Path

/-!
# File systems

A file system is a finite set of entries, each at a place, and a working directory. A place is given by
the names on the way down from the root, so it is free of links, points and spelling. What a path leads
to is found by following it from the root or from the working directory: links are replaced by their
targets, and `..` leads to the directory above the place reached so far, not above the text. A path may
run through forty links and no more, so following a path always ends.

A slash at the end of a path asks for a directory, like the step `.` does.

Not all that is there can be looked at. Reading a file or the names in a directory can be refused, a
directory can be closed to paths that go through it, and a path that is too long is not followed at all.
-/

namespace TemplateLint

/-- The names on the way from the root down to an entry. -/
abbrev Place := List RawPath

/-- What stands at a place. -/
inductive Entry where
  | file (content : ByteArray)
  | directory
  | link (target : RawPath)
  /-- Something that is neither, like a pipe or a device, with what reading it gives. -/
  | special (content : ByteArray)
  deriving Inhabited

/-- Whether a directory is what stands at a place. -/
def Entry.isDirectory : Entry → Bool
  | .directory => true
  | _ => false

/-- Whether a file is what stands at a place. -/
def Entry.isFile : Entry → Bool
  | .file _ => true
  | _ => false

/-- Entries at places, and the directory that relative paths start from. -/
structure FileSystem where
  entries : List (Place × Entry) := []
  workingDirectory : Place := []
  /-- What cannot be read, be it the content of a file or the names in a directory, and why. -/
  refusals : List (Place × FileError) := []
  /-- The directories that no path leads through. -/
  closed : List Place := []

/-- The absolute path of a place. -/
def Place.path (place : Place) : RawPath :=
  Path.slash :: Text.joinWith Path.slash place

namespace FileSystem

/-- What stands at a place. The root is always a directory. -/
def entry? (fs : FileSystem) (place : Place) : Option Entry :=
  if place.isEmpty then some .directory else fs.entries.lookup place

/-- Whether a directory stands at a place. -/
def isDirectoryAt (fs : FileSystem) (place : Place) : Bool :=
  (fs.entry? place).any Entry.isDirectory

/-- Why what stands at a place cannot be read, if there is a reason. -/
def refusal? (fs : FileSystem) (place : Place) : Option FileError :=
  fs.refusals.lookup place

/-! ## Following paths -/

/-- How many links a path may run through. -/
def maxLinks : Nat := 40

/-- How many bytes a path may have. -/
def maxPath : Nat := 4095

/-- How many bytes a name may have. -/
def maxName : Nat := 255

/-- The steps that following a path takes, with an empty one for a slash at its end. -/
def steps (path : RawPath) : List RawPath :=
  Path.parts path ++ if path.getLast? = some Path.slash then [[]] else []

/-- Where a path starts. -/
def origin (path : RawPath) (here : Place) : Place :=
  if Path.isAbsolute path then [] else here

/-- A step that does not ask for a name in the directory it is taken in. -/
def isIdle (step : RawPath) : Bool :=
  step = [] || step = "." || step = ".."

/-- How a path is followed. -/
inductive Manner where
  /-- From directory to directory, as the system does it. -/
  | stepwise
  /-- Through the absolute path of each entry on the way, as it is done to find the absolute path of the
  last one. -/
  | absolute
  deriving DecidableEq, Repr

/-- Why a step cannot be taken at a place, if there is a reason. -/
def barrier? (fs : FileSystem) (manner : Manner) (here : Place) (step : RawPath) :
    Option FileError :=
  if !fs.isDirectoryAt here then some .notDirectory
  else
    match manner with
    | .stepwise => if step ≠ [] && fs.closed.contains here then some .denied else none
    | .absolute =>
      if isIdle step then none
      else if (Place.path (here ++ [step])).length > maxPath then some .nameTooLong
      else if fs.closed.any fun place => place.isPrefixOf here then some .denied
      else none

/-- The place reached by steps, when so many links may still be followed. -/
def follow (fs : FileSystem) (manner : Manner) (links : Nat) (here : Place) :
    List RawPath → Except FileError Place
  | [] => .ok here
  | step :: rest =>
    match fs.barrier? manner here step with
    | some error => .error error
    | none =>
      if step = [] ∨ step = "." then fs.follow manner links here rest
      else if step = ".." then fs.follow manner links here.dropLast rest
      else
        match fs.entry? (here ++ [step]) with
        | none => .error (if step.length > maxName then .nameTooLong else .missing)
        | some (.link target) =>
          match links with
          | 0 => .error .tooManyLinks
          | left + 1 => fs.follow manner left (origin target here) (steps target ++ rest)
        | some _ => fs.follow manner links (here ++ [step]) rest
termination_by rest => (links, rest.length)

/-- The place that a path leads to. -/
def resolve (fs : FileSystem) (path : RawPath) : Except FileError Place :=
  if path = [] then .error .missing
  else if path.length > maxPath then .error .nameTooLong
  else fs.follow .stepwise maxLinks (origin path fs.workingDirectory) (steps path)

/-- What stands where a path leads to. -/
def target? (fs : FileSystem) (path : RawPath) : Option Entry :=
  match fs.resolve path with
  | .ok place => fs.entry? place
  | .error _ => none

/-- Whether a path leads anywhere. -/
def isPresent (fs : FileSystem) (path : RawPath) : Bool :=
  (fs.target? path).isSome

/-- Whether a path leads to a directory. -/
def isDirectory (fs : FileSystem) (path : RawPath) : Bool :=
  (fs.target? path).any Entry.isDirectory

/-- Whether a path leads to a file. -/
def isFile (fs : FileSystem) (path : RawPath) : Bool :=
  (fs.target? path).any Entry.isFile

/-- The place of what a path leads to, as it is found to make its absolute path. The path itself may be
of any length here. -/
def realPlace (fs : FileSystem) (path : RawPath) : Except FileError Place :=
  if path = [] then .error .missing
  else fs.follow .absolute maxLinks (origin path fs.workingDirectory) (steps path)

/-- The absolute path, without links, of what a path leads to. -/
def canonical (fs : FileSystem) (path : RawPath) : Except FileError RawPath :=
  (fs.realPlace path).map Place.path

/-- The content of the file that a path leads to. -/
def read (fs : FileSystem) (path : RawPath) : Except FileError ByteArray := do
  let place ← fs.resolve path
  match fs.entry? place, fs.refusal? place with
  | some .directory, refusal => .error (refusal.getD .isDirectory)
  | some (.file content), none | some (.special content), none => .ok content
  | some (.file _), some error | some (.special _), some error => .error error
  | _, _ => .error .missing

/-! ## Listing directories -/

/-- A name in its order among names, each kept once. -/
def insertName (name : RawPath) : List RawPath → List RawPath
  | [] => [name]
  | other :: rest =>
    if name < other then name :: other :: rest
    else if name = other then other :: rest
    else other :: insertName name rest

/-- The names of the entries right below a place, in order. -/
def namesBelow (fs : FileSystem) (place : Place) : List RawPath :=
  fs.entries.foldr (fun (spot, _) names =>
    match spot.getLast? with
    | some name => if spot.dropLast = place then insertName name names else names
    | none => names) []

/-- The names in the directory that a path leads to, in order, if they can be read. -/
def list? (fs : FileSystem) (path : RawPath) : Option (List RawPath) :=
  match fs.resolve path with
  | .error _ => none
  | .ok place =>
    if fs.isDirectoryAt place && (fs.refusal? place).isNone then some (fs.namesBelow place) else none

/-! ## Adding entries -/

/-- The file system with an entry at a place. -/
def set (fs : FileSystem) (place : Place) (entry : Entry) : FileSystem :=
  { fs with entries := fs.entries.filter (fun (other, _) => other ≠ place) ++ [(place, entry)] }

/-- The file system in which what stands at a place cannot be read. -/
def refuse (fs : FileSystem) (place : Place) (error : FileError) : FileSystem :=
  { fs with refusals := (place, error) :: fs.refusals }

end FileSystem

end TemplateLint
