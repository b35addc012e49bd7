import TemplateLint.Files.Path

/-!
# Templates to lint

A template is known by two names: the real path its content was read from, and the path that reports
show, which is built from the path the user asked for.
-/

namespace TemplateLint

/-- One template. -/
structure Source where
  content : String
  realPath : RawPath
  displayPath : String
  deriving DecidableEq, Repr, Inhabited

end TemplateLint
