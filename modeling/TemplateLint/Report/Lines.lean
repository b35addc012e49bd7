/-!
# Lines of a report

Every report is made of lines, each ended by a line feed. A report is written line by line, so a line
is also what is handed to the output at once; the JSON report is handed over whole, as if it were a
single line.
-/

namespace TemplateLint.Report

/-- Lines in one text, each ended by a line feed. -/
def unlines (lines : List String) : String :=
  String.join (lines.map (· ++ "\n"))

theorem unlines_cons (line : String) (rest : List String) :
    unlines (line :: rest) = line ++ "\n" ++ unlines rest := by
  simp [unlines]

end TemplateLint.Report
