import Mathlib.Data.List.Basic
import Mathlib.Data.List.Forall2
import Mathlib.Order.MinMax
import Mathlib.Tactic.Tauto
import TemplateLint.Finding.Threshold

/-!
# The gate as a filter

Whether a finding blocks depends on its severity alone, and the more so the lower the threshold is. So
two filters in a row keep what the higher threshold keeps, and a filter that is not above a threshold
takes nothing away that blocks under it: findings can be filtered before or after they are gated. The
exit code asks whether anything is left.
-/

namespace TemplateLint

/-- The same finding with a severity that is at least as high. -/
def Violation.Raised (v w : Violation) : Prop :=
  ∃ severity, v.severity ≤ severity ∧ w = { v with severity := severity }

namespace Threshold

variable {s t : Threshold}

/-- The findings that are left when they are filtered by one threshold after the other. -/
def filtered (thresholds : List Threshold) (found : List Violation) : List Violation :=
  thresholds.foldl (fun left t => t.displayed .blocking left) found

theorem blocks_max (s t : Threshold) (v : Violation) :
    (max s t).blocks v = (t.blocks v && s.blocks v) := by
  simp only [blocks, max_lt_iff, Bool.decide_and, Bool.and_comm]

theorem blocks_mono (h : s ≤ t) {v : Violation} (hblocks : t.blocks v = true) : s.blocks v = true := by
  rw [blocks, decide_eq_true_iff] at hblocks ⊢
  exact lt_of_le_of_lt h hblocks

theorem blocks_of_raised {v w : Violation} (h : v.Raised w) (hblocks : t.blocks v = true) :
    t.blocks w = true := by
  obtain ⟨severity, hle, rfl⟩ := h
  rw [blocks, decide_eq_true_iff] at hblocks ⊢
  exact lt_of_lt_of_le hblocks hle

/-! ### The filter -/

theorem displayed_displayed (s t : Threshold) (found : List Violation) :
    t.displayed .blocking (s.displayed .blocking found) = (max s t).displayed .blocking found := by
  rw [displayed, displayed, displayed, List.filter_filter]
  exact List.filter_congr fun v _ => (blocks_max s t v).symm

theorem displayed_sublist (h : s ≤ t) (found : List Violation) :
    (t.displayed .blocking found).Sublist (s.displayed .blocking found) :=
  List.monotone_filter_right found fun _ => blocks_mono h

theorem filtered_eq (thresholds : List Threshold) (found : List Violation) :
    filtered thresholds found = found.filter fun v => thresholds.all (·.blocks v) := by
  induction thresholds generalizing found with
  | nil => exact (List.filter_eq_self.2 fun _ _ => rfl).symm
  | cons t rest ih =>
    rw [filtered, List.foldl_cons, ← filtered, ih, displayed, List.filter_filter]
    exact List.filter_congr fun v _ => Bool.and_comm _ _

theorem filtered_cons (first : Threshold) (rest : List Threshold) (found : List Violation) :
    filtered (first :: rest) found = (rest.foldl max first).displayed .blocking found := by
  induction rest generalizing first with
  | nil => rfl
  | cons t rest ih =>
    rw [List.foldl_cons, ← ih, filtered, filtered, List.foldl_cons, List.foldl_cons, List.foldl_cons,
      displayed_displayed]

/-- Only which thresholds there are matters, not their order and not how often they are applied. -/
theorem filtered_congr {thresholds others : List Threshold} (h : ∀ t, t ∈ thresholds ↔ t ∈ others)
    (found : List Violation) : filtered thresholds found = filtered others found := by
  rw [filtered_eq, filtered_eq]
  refine List.filter_congr fun v _ => ?_
  rw [← Bool.coe_iff_coe, List.all_eq_true, List.all_eq_true]
  exact forall_congr' fun t => imp_congr_left (h t)

/-! ### The exit code -/

theorem exitCode_eq_one_iff {found : List Violation} :
    t.exitCode found = 1 ↔ ∃ v ∈ found, t.blocks v = true := by
  rw [exitCode, ← List.any_eq_true]
  cases found.any t.blocks <;> decide

theorem exitCode_cases (t : Threshold) (found : List Violation) :
    t.exitCode found = 0 ∨ t.exitCode found = 1 := by
  unfold exitCode
  split
  · exact .inr rfl
  · exact .inl rfl

theorem exitCode_displayed (h : s ≤ t) (found : List Violation) :
    t.exitCode (s.displayed .blocking found) = t.exitCode found := by
  have hboth (v : Violation) : (s.blocks v && t.blocks v) = t.blocks v := by
    rw [Bool.and_comm, ← blocks_max, max_eq_right h]
  rw [exitCode, exitCode, displayed, List.any_filter]
  simp only [hboth]

theorem exitCode_anti (h : s ≤ t) {found : List Violation} (hcode : t.exitCode found = 1) :
    s.exitCode found = 1 := by
  obtain ⟨v, hv, hblocks⟩ := exitCode_eq_one_iff.1 hcode
  exact exitCode_eq_one_iff.2 ⟨v, hv, blocks_mono h hblocks⟩

theorem exitCode_raised {found raised : List Violation} (h : List.Forall₂ Violation.Raised found raised)
    (hcode : t.exitCode found = 1) : t.exitCode raised = 1 := by
  rw [exitCode_eq_one_iff] at hcode ⊢
  induction h with
  | nil => exact hcode
  | @cons v w found raised hraised _ ih =>
    obtain ⟨u, hu, hblocks⟩ := hcode
    rcases List.mem_cons.1 hu with rfl | hmem
    · exact ⟨w, List.mem_cons_self, blocks_of_raised hraised hblocks⟩
    · obtain ⟨x, hx, hxblocks⟩ := ih ⟨u, hmem, hblocks⟩
      exact ⟨x, List.mem_cons_of_mem w hx, hxblocks⟩

theorem exitCode_append (t : Threshold) (a b : List Violation) :
    t.exitCode (a ++ b) = max (t.exitCode a) (t.exitCode b) := by
  unfold exitCode
  rw [List.any_append]
  cases a.any t.blocks <;> cases b.any t.blocks <;> rfl

/-- **The gate is a monotone filter.** Filtering by one threshold and then by another is filtering by the
higher of the two, so in a row of filters only the highest one counts, and neither their order nor a
repetition matters. The exit code under a threshold is not changed by a filter that is not above it. A
higher threshold leaves a part of the findings and never makes a run fail that passed; a higher severity
never makes a run pass that failed. Findings that are put together are filtered one after the other, and
the higher of their exit codes is the exit code. -/
theorem gate_monotone :
    (∀ (s t : Threshold) (found : List Violation),
      t.displayed .blocking (s.displayed .blocking found) = (max s t).displayed .blocking found) ∧
    (∀ (first : Threshold) (rest : List Threshold) (found : List Violation),
      filtered (first :: rest) found = (rest.foldl max first).displayed .blocking found) ∧
    (∀ (thresholds others : List Threshold) (found : List Violation),
      (∀ t, t ∈ thresholds ↔ t ∈ others) → filtered thresholds found = filtered others found) ∧
    (∀ (s t : Threshold) (found : List Violation), s ≤ t →
      t.exitCode (s.displayed .blocking found) = t.exitCode found ∧
        (t.displayed .blocking found).Sublist (s.displayed .blocking found) ∧
        (t.exitCode found = 0 ∨ t.exitCode found = 1) ∧ (t.exitCode found = 1 → s.exitCode found = 1)) ∧
    (∀ (t : Threshold) (found raised : List Violation), List.Forall₂ Violation.Raised found raised →
      t.exitCode found = 1 → t.exitCode raised = 1) ∧
    ∀ (t : Threshold) (a b : List Violation),
      t.displayed .blocking (a ++ b) = t.displayed .blocking a ++ t.displayed .blocking b ∧
        t.exitCode (a ++ b) = max (t.exitCode a) (t.exitCode b) :=
  ⟨displayed_displayed, filtered_cons, fun _ _ found h => filtered_congr h found,
    fun _ t found h => ⟨exitCode_displayed h found, displayed_sublist h found, exitCode_cases t found,
      exitCode_anti h⟩,
    fun _ _ _ h => exitCode_raised h, fun t a b => ⟨List.filter_append a b, exitCode_append t a b⟩⟩

/-- Thresholds on both sides of the ranks, one of them repeated, and a warning that becomes an error. -/
theorem gate_monotone_below_and_above :
    let finding (severity : Severity) : Violation := ⟨"a.twig", ⟨1, 0⟩, "A finding.", severity⟩
    let found := [finding .info, finding .error, finding .warning]
    (∀ t : Threshold, t ∈ [2, -5, 2] ↔ t ∈ [-5, 2]) ∧
    filtered [2, -5, 2] found = filtered [-5, 2] found ∧
    ((-5 : Threshold) ≤ 2 ∧ exitCode 2 (displayed (-5) .blocking found) = 1) ∧
    exitCode (-5) found = 1 ∧ exitCode 7 found = 0 ∧
    exitCode 1 [finding .warning] = 1 ∧ exitCode 1 [finding .error] = 1 := by
  intro finding found
  obtain ⟨-, -, hset, hmono, hraised, -⟩ := gate_monotone
  have hsame (t : Threshold) : t ∈ [2, -5, 2] ↔ t ∈ [-5, 2] := by
    simp only [List.mem_cons, List.not_mem_nil, or_false]
    tauto
  have hfails : exitCode 2 found = 1 := by decide
  obtain ⟨hfiltered, -, -, hlower⟩ := hmono (-5) 2 found (by decide)
  have hwarning : Violation.Raised (finding .warning) (finding .error) := ⟨.error, by decide, rfl⟩
  exact ⟨hsame, hset _ _ found hsame, ⟨by decide, hfiltered.trans hfails⟩, hlower hfails, by decide,
    by decide, hraised 1 _ _ (.cons hwarning .nil) (by decide)⟩

end Threshold

end TemplateLint
