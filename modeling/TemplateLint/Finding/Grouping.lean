import TemplateLint.Finding.Violation

/-!
# Findings by file

Three of the reports put the findings about one file together. Files come in the order in which they
are first found to have a finding, and the findings about one file keep their order.
-/

namespace TemplateLint

/-- The findings about one file. -/
structure FileFindings where
  path : String
  found : List Violation
  deriving DecidableEq, Repr, Inhabited

namespace FileFindings

/-- Groups with one more finding, at the end of its file's group. -/
def insert (v : Violation) : List FileFindings → List FileFindings
  | [] => [⟨v.path, [v]⟩]
  | group :: rest =>
    if group.path = v.path then ⟨group.path, group.found ++ [v]⟩ :: rest
    else group :: insert v rest

end FileFindings

/-- The findings of a list, by file. -/
def groupByFile (found : List Violation) : List FileFindings :=
  found.foldl (fun groups v => FileFindings.insert v groups) []

end TemplateLint
