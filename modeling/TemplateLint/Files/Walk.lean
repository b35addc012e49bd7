import TemplateLint.Files.FileSystem
import TemplateLint.Files.Pattern

/-!
# Walking a directory tree

A pattern is matched against a file system part by part, from the root down. A literal part is looked up
and any other part is matched against the names in the directory reached so far; links to directories
are walked like directories, and names are taken in order. The answer is a list of paths, spelled as the
walk reached them.

A wild part that begins with a point also stands for `..` and `.` if it matches them, though no
directory lists these names. A directory whose names cannot be read leads nowhere, and a name that is no
text is matched by no part, though directories with such names are walked as well.

A walk through links could go round in circles. It ends since no path may run through more than
`maxLinks` links, and between two links there is at most one step for each entry.
-/

namespace TemplateLint.FileSystem

open Pattern

/-- More steps than any walk can take. -/
def walkBound (fs : FileSystem) : Nat :=
  (maxLinks + 1) * (fs.entries.length + 1)

/-- The paths below a directory up to a depth, each with its last name, directories before what they
hold. -/
def below (fs : FileSystem) : Nat → RawPath → List (RawPath × RawPath)
  | 0, _ => []
  | depth + 1, path =>
    ((fs.list? path).getD []).flatMap fun name =>
      let child := Path.join path name
      (child, name) :: fs.below depth child

/-- The names with a meaning of their own that a wild part can stand for. -/
def specialNames (atoms : List Atom) : List RawPath :=
  match atoms with
  | .char '.' :: _ => (["..", "."] : List RawPath).filter (acceptsName atoms)
  | _ => []

/-- Whether a literal part leads on from a path. -/
def hasStep (fs : FileSystem) (path name : RawPath) : Bool :=
  if name = "." ∨ name = ".." then fs.isDirectory path else fs.isPresent (Path.join path name)

/-- The paths that the parts of a pattern lead to from a path. -/
def expand (fs : FileSystem) (onlyDirectories : Bool) : List Segment → RawPath → List RawPath
  | [], path => if onlyDirectories && !fs.isDirectory path then [] else [path]
  | .literal name :: rest, path =>
    if fs.hasStep path name then fs.expand onlyDirectories rest (Path.join path name) else []
  | .wild atoms :: rest, path =>
    match fs.list? path with
    | none => []
    | some names =>
      (specialNames atoms ++ names.filter (acceptsName atoms)).flatMap fun name =>
        fs.expand onlyDirectories rest (Path.join path name)
  | [.recursive], path => ((fs.below fs.walkBound path).map Prod.fst).filter fs.isDirectory
  | .recursive :: segment :: rest, path =>
    (fs.below fs.walkBound path).flatMap fun (child, name) =>
      if segment.holds name then fs.expand onlyDirectories rest child else []

/-- The paths that a pattern stands for. -/
def matching (fs : FileSystem) (glob : Glob) : List RawPath :=
  fs.expand glob.onlyDirectories glob.segments "/"

end TemplateLint.FileSystem
