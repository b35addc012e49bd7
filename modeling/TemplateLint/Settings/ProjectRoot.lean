import TemplateLint.Files.Path.Ancestors
import TemplateLint.Settings.ConfigFile

/-!
# The project root

A project is marked by a config file or by a `.git` in its directory. The root of the project that a
directory belongs to is the nearest marked directory among it and its ancestors. A directory that
belongs to no project is its own root, in its own spelling.
-/

namespace TemplateLint.ProjectRoot

/-- Whether a directory is marked as the root of a project. -/
def isMarked (fs : FileSystem) (directory : RawPath) : Bool :=
  (ConfigFile.names ++ [".git"]).any fun name => fs.isPresent (Path.join directory name)

/-- The root of the project that a directory belongs to. -/
def detect (fs : FileSystem) (start : RawPath) : RawPath :=
  ((Path.ancestors start).find? (isMarked fs)).getD start

end TemplateLint.ProjectRoot
