/-!
# Severities

Every finding has one of four severities. They are ordered, and `rank` numbers them upwards from zero;
the order, the gate on a run and the JSON report all go through the rank.
-/

namespace TemplateLint

/-- How much a finding matters. -/
inductive Severity where
  | ignore
  | info
  | warning
  | error
  deriving DecidableEq, Repr, Inhabited

namespace Severity

/-- The severities in ascending order. -/
def all : List Severity := [.ignore, .info, .warning, .error]

/-- The place of a severity in the order. -/
def rank : Severity → Int
  | .ignore => 0
  | .info => 1
  | .warning => 2
  | .error => 3

/-- The word for a severity in settings and reports. -/
def name : Severity → String
  | .ignore => "ignore"
  | .info => "info"
  | .warning => "warning"
  | .error => "error"

/-- The severity that a word names. -/
def ofName? (word : String) : Option Severity :=
  all.find? fun s => s.name == word

instance : LE Severity := ⟨fun a b => a.rank ≤ b.rank⟩

instance : LT Severity := ⟨fun a b => a.rank < b.rank⟩

instance (a b : Severity) : Decidable (a ≤ b) := inferInstanceAs (Decidable (a.rank ≤ b.rank))

instance (a b : Severity) : Decidable (a < b) := inferInstanceAs (Decidable (a.rank < b.rank))

@[simp]
theorem ofName?_name (s : Severity) : ofName? s.name = some s := by
  cases s <;> decide

theorem name_of_ofName? {word : String} {s : Severity} (h : ofName? word = some s) :
    s.name = word := by
  simpa using List.find?_some h

theorem rank_injective {a b : Severity} (h : a.rank = b.rank) : a = b := by
  cases a <;> cases b <;> first | rfl | contradiction

end Severity

end TemplateLint
