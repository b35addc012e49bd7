import Mathlib
import TemplateLint.Proofs.Finding.Grouping
import TemplateLint.Report.Json

/-!
# The JSON report keeps a grouping whole

The value that the JSON report writes has one object for each group and one for each finding in it, and
says each part of a finding under a name of its own. Two such objects are equal just if the parts are, so
the value stands for the grouping (`Report.Json.compose_eq_iff`). It also says how many findings there
are, which is no more than the groups say: grouping loses no finding and adds none.
-/

namespace TemplateLint

namespace Report.Json

/-- The value of a member of an object. -/
def member? (name : String) : Json → Option Json
  | .object members => members.lookup name
  | _ => none

/-- The items of an array that is a member of an object. -/
def list (name : String) (value : Json) : List Json :=
  match value.member? name with
  | some (.array items) => items
  | _ => []

theorem member?_failures (found : List Violation) :
    (compose found).member? "failures" = some (.number found.length) := rfl

theorem list_files (found : List Violation) :
    (compose found).list "files" = (groupByFile found).map ofFile := rfl

theorem list_violations (group : FileFindings) :
    (ofFile group).list "violations" = group.found.map ofViolation := rfl

/-- The arrays of the files have all findings between them. -/
theorem sum_length_violations (found : List Violation) :
    (((compose found).list "files").map fun file => (file.list "violations").length).sum =
      found.length := by
  have hlengths : (fun file : Json => (file.list "violations").length) ∘ ofFile =
      fun group => group.found.length := by
    funext group
    rw [Function.comp_apply, list_violations, List.length_map]
  rw [list_files, List.map_map, hlengths, ← List.length_flatMap]
  exact (perm_flatMap_groupByFile found).length_eq

/-! ### Equal values -/

theorem map_eq_map_iff {α β γ : Type} {f : α → β} {g : α → γ} (h : ∀ a b, f a = f b ↔ g a = g b)
    {list list' : List α} : list.map f = list'.map f ↔ list.map g = list'.map g := by
  induction list generalizing list' with
  | nil => cases list' <;> simp
  | cons a list ih =>
    cases list' with
    | nil => simp
    | cons b list' => rw [List.map_cons, List.map_cons, List.map_cons, List.map_cons, List.cons.injEq,
        List.cons.injEq, h, ih]

theorem ofViolation_eq_iff (v w : Violation) : ofViolation v = ofViolation w ↔ v.entry = w.entry := by
  have hposition : v.position = w.position ↔
      v.position.line = w.position.line ∧ v.position.column = w.position.column := by
    cases v.position
    cases w.position
    simp
  have hseverity : v.severity = w.severity ↔ v.severity.rank = w.severity.rank ∧
      v.severity.name = w.severity.name :=
    ⟨fun h => by simp [h], fun h => Severity.rank_injective h.1⟩
  simp [ofViolation, Violation.entry, hposition, hseverity, and_assoc]

theorem ofFile_eq_iff (group other : FileFindings) :
    ofFile group = ofFile other ↔ group.entries = other.entries := by
  simp [ofFile, FileFindings.entries, map_eq_map_iff ofViolation_eq_iff]

theorem compose_eq_iff {found other : List Violation} :
    compose found = compose other ↔ groupByFile found = groupByFile other := by
  rw [groupByFile_eq_iff, ← map_eq_map_iff ofFile_eq_iff, ← list_files, ← list_files]
  refine ⟨fun h => by rw [h], fun h => ?_⟩
  have hlength : found.length = other.length := by
    rw [← sum_length_violations, h, sum_length_violations]
  rw [list_files, list_files] at h
  rw [compose, compose, h, hlength]

end Report.Json

open Report in
/-- **Grouping is a stable partition.** There is one group for each path, in the order of first
occurrence, and its findings are those with the path, in their order. So the groups have the findings of
the list and no others, they are what their findings are grouped into, and they only rearrange findings
that do not stand with the others about their file. The JSON report counts the findings, lists that many,
and is the same value for two lists just if they have the same groups. -/
theorem groupByFile_partition (found : List Violation) :
    let groups := groupByFile found
    groups.map FileFindings.path = (found.map Violation.path).eraseDups ∧
      (∀ group ∈ groups, group.found = found.filter (fun v => v.path = group.path) ∧
        group.found ≠ []) ∧
      (groups.flatMap FileFindings.found).Perm found ∧
      groupByFile (groups.flatMap FileFindings.found) = groups ∧
      (groups.flatMap FileFindings.found = found ↔ Contiguous found) ∧
      (Json.compose found).member? "failures" = some (.number found.length) ∧
      (((Json.compose found).list "files").map fun file => (file.list "violations").length).sum =
        found.length ∧
      ∀ other, Json.compose found = Json.compose other ↔ groups = groupByFile other := by
  intro groups
  have hgrouping := isGrouping_groupByFile found
  refine ⟨paths_groupByFile found, fun group hgroup => ⟨?_, hgrouping.ne_nil group hgroup⟩,
    perm_flatMap_groupByFile found, hgrouping.groupByFile_flatMap, flatMap_groupByFile_eq_iff,
    Json.member?_failures found, Json.sum_length_violations found, fun other => Json.compose_eq_iff⟩
  exact congrArg FileFindings.found (eq_about_of_mem hgroup)

open Report in
/-- Findings about a file with one about another file between them, behind them and before them. -/
theorem groupByFile_partition_two_files :
    let first : Violation := ⟨"a", ⟨1, 0⟩, "m", .error⟩
    let second : Violation := ⟨"b", ⟨1, 0⟩, "m", .error⟩
    let third : Violation := ⟨"a", ⟨2, 0⟩, "n", .info⟩
    let found := [first, second, third]
    (⟨"a", [first, third]⟩ : FileFindings) ∈ groupByFile found ∧
      [first, third] = found.filter (fun v => v.path = "a") ∧
      ¬ Contiguous found ∧
      Json.compose found = Json.compose [first, third, second] ∧
      Json.compose found ≠ Json.compose [second, first, third] := by
  intro first second third found
  obtain ⟨-, hgroup, -, -, hmoved, -, -, hjson⟩ := groupByFile_partition found
  have hmem : (⟨"a", [first, third]⟩ : FileFindings) ∈ groupByFile found := by decide
  refine ⟨hmem, (hgroup _ hmem).1, ?_, (hjson _).2 (by decide), ?_⟩
  · rw [← hmoved]
    decide
  · rw [Ne, hjson]
    decide

end TemplateLint
