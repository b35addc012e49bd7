import TemplateLint.Text.Split
import TemplateLint.Text.Utf8

/-!
# Paths as bytes

A path is a run of bytes whose parts are divided by slashes. Empty parts mean nothing, and neither does a
single point, except at the very front of a relative path, where it is kept as a component of its own.
Two spellings of a path are compared by their components, names by their bytes. Most paths are the bytes
of a text, but a disk takes any bytes for a name that hold no slash.

Nothing here looks at a disk: `..` is a component like any other, and what it leads to is for the file
system to say.
-/

namespace TemplateLint

/-- A path, or a name in it, as a disk keeps it. -/
abbrev RawPath := List UInt8

/-- A text names what its bytes name. -/
instance : Coe String RawPath := ⟨Utf8.encode⟩

namespace Path

/-- The byte between the parts of a path. -/
def slash : UInt8 := 0x2F

/-- A step of a path. -/
inductive Component where
  | root
  | current
  | parent
  | name (bytes : RawPath)
  deriving DecidableEq, Repr, Inhabited

namespace Component

/-- The bytes of a step. -/
def bytes : Component → RawPath
  | .root => "/"
  | .current => "."
  | .parent => ".."
  | .name bytes => bytes

/-- The place of a step among the kinds of steps. -/
def rank : Component → Nat
  | .root => 0
  | .current => 1
  | .parent => 2
  | .name _ => 3

/-- Whether a step comes before another one: by kind, and names by their bytes. -/
def before (a b : Component) : Bool :=
  a.rank < b.rank || (a.rank == b.rank && a.bytes < b.bytes)

/-- The step that a part between slashes stands for. -/
def ofPart (part : RawPath) : Component :=
  if part = ".." then .parent else .name part

end Component

/-- Whether a path starts at the root. -/
def isAbsolute (path : RawPath) : Bool :=
  path.head? == some slash

/-- The parts of a path that are not empty. -/
def parts (path : RawPath) : List RawPath :=
  (Text.cutAt slash path).filter (· ≠ [])

/-- The steps of parts that come after the front of a path. -/
def innerComponents (parts : List RawPath) : List Component :=
  (parts.filter fun part : RawPath => part ≠ ".").map Component.ofPart

/-- The steps of a path. -/
def components (path : RawPath) : List Component :=
  if isAbsolute path then .root :: innerComponents (parts path)
  else if (parts path).head? = some ("." : RawPath) then .current :: innerComponents (parts path)
  else innerComponents (parts path)

/-- Whether steps come before other steps or are the same. -/
def componentsLe : List Component → List Component → Bool
  | [], _ => true
  | _ :: _, [] => false
  | a :: as, b :: bs => if a = b then componentsLe as bs else a.before b

/-- The order of paths by their steps. -/
def le (a b : RawPath) : Bool :=
  componentsLe (components a) (components b)

/-- Whether two paths are spellings of one path. -/
def same (a b : RawPath) : Bool :=
  components a == components b

/-- A path that goes on from a base. An absolute path does not need one. -/
def join (base path : RawPath) : RawPath :=
  if isAbsolute path || base = [] then path
  else if base.getLast? = some slash then base ++ path
  else base ++ slash :: path

/-- The parts of a path from behind, without those at its end that mean nothing. -/
def dropIdle (absolute : Bool) : List RawPath → List RawPath
  | [] => []
  | part :: rest =>
    if part = [] || (part = "." && (absolute || !rest.isEmpty)) then dropIdle absolute rest
    else part :: rest

/-- The path without its last step, if it has one to lose. What stands before that step keeps its
spelling, but for the parts at its end that mean nothing. -/
def parent? (path : RawPath) : Option RawPath :=
  let absolute := isAbsolute path
  let all := Text.cutAt slash path
  let body := if absolute then all.tail else all
  match dropIdle absolute body.reverse with
  | [] => none
  | _ :: rest =>
    some ((if absolute then [slash] else []) ++
      Text.joinWith slash (dropIdle absolute rest).reverse)

/-- The text without slashes at its end. -/
def trimEnd (path : String) : String :=
  String.ofList (Text.trimEnd (· == '/') path.toList)

/-- The text without slashes at either end. -/
def trim (path : String) : String :=
  String.ofList ((Text.trimEnd (· == '/') path.toList).dropWhile (· == '/'))

end Path

end TemplateLint
