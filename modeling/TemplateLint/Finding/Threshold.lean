import TemplateLint.Failure

/-!
# The gate

A run passes or fails by the severities of its findings. The user names the lowest severity that
blocks; the threshold kept for it is the rank just below, so that a finding blocks when its rank is
above the threshold. The same test decides which findings are displayed when only blocking ones are
asked for. The exit code is taken from all findings, displayed or not.
-/

namespace TemplateLint

/-- The highest rank that does not block. -/
abbrev Threshold := Int

/-- Which findings a report shows. -/
inductive DisplayMode where
  | all
  | blocking
  deriving DecidableEq, Repr, Inhabited

/-- The display mode that a word names. -/
def DisplayMode.named (word : String) : Except SettingError DisplayMode :=
  match word with
  | "all" => .ok .all
  | "blocking" => .ok .blocking
  | _ => .error (.unknownDisplayMode word)

namespace Threshold

/-- The threshold under which a severity is the lowest that blocks. -/
def below (lowest : Severity) : Threshold :=
  lowest.rank - 1

/-- The threshold for the lowest blocking severity, given by its name. -/
def named (word : String) : Except SettingError Threshold :=
  match Severity.ofName? word with
  | some lowest => .ok (below lowest)
  | none => .error (.unknownSeverity word)

/-- Whether a finding makes the run fail. -/
def blocks (threshold : Threshold) (v : Violation) : Bool :=
  threshold < v.severity.rank

/-- The findings a report shows, in their order. -/
def displayed (threshold : Threshold) (mode : DisplayMode) (found : List Violation) :
    List Violation :=
  match mode with
  | .all => found
  | .blocking => found.filter threshold.blocks

/-- One if a finding blocks, else zero. -/
def exitCode (threshold : Threshold) (found : List Violation) : Nat :=
  if found.any threshold.blocks then 1 else 0

theorem blocks_below_iff (lowest : Severity) (v : Violation) :
    (below lowest).blocks v = true ↔ lowest ≤ v.severity := by
  show decide (lowest.rank - 1 < v.severity.rank) = true ↔ lowest.rank ≤ v.severity.rank
  rw [decide_eq_true_iff]
  omega

end Threshold

end TemplateLint
