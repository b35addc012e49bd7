import Mathlib.Data.List.Sort
import Mathlib.Data.Prod.Lex
import Mathlib.Data.String.Basic
import TemplateLint.Files.Discovery

/-!
# The order of paths

Paths are compared by their steps. Steps are ordered by kind, and names by their bytes, so they are in a
linear order, and so are the lists of steps. A list of paths that is sorted and then freed from the
repeats next to each other has the steps of each path once, in strictly increasing order. Such a list is
determined by the paths that are in it: this is what makes the files of a directory independent of the
order in which they were found.
-/

namespace TemplateLint

namespace Path

/-- Bytes by the numbers they are. -/
instance byteOrder : LinearOrder UInt8 where
  le_refl := UInt8.le_refl
  le_trans _ _ _ := UInt8.le_trans
  le_antisymm _ _ := UInt8.le_antisymm
  le_total := UInt8.le_total
  lt_iff_le_not_ge a b := by
    rw [UInt8.lt_iff_toNat_lt, UInt8.le_iff_toNat_le, UInt8.le_iff_toNat_le]
    omega
  toDecidableLE := inferInstance
  toDecidableLT := inferInstance

namespace Component

/-- The kind of a step, and its bytes. -/
def sortKey (c : Component) : ℕ ×ₗ RawPath :=
  toLex (c.rank, c.bytes)

theorem sortKey_injective : Function.Injective sortKey := by
  intro a b h
  have hpair : (a.rank, a.bytes) = (b.rank, b.bytes) := congrArg ofLex h
  cases a <;> cases b <;> simp_all [rank, bytes]

instance : LinearOrder Component :=
  LinearOrder.lift' sortKey sortKey_injective

theorem lt_iff (a b : Component) : a < b ↔ a.before b = true := by
  rw [show a < b ↔ sortKey a < sortKey b from Iff.rfl, sortKey, sortKey, Prod.Lex.toLex_lt_toLex]
  simp only [before, Bool.or_eq_true, Bool.and_eq_true, decide_eq_true_iff, beq_iff_eq]

theorem name_lt_iff (a b : RawPath) : name a < name b ↔ a < b := by
  have hrank : ¬ (name a).rank < (name b).rank := Nat.lt_irrefl 3
  rw [lt_iff, before, decide_eq_false hrank, Bool.false_or]
  exact decide_eq_true_iff

end Component

theorem componentsLe_iff (a b : List Component) : componentsLe a b = true ↔ a ≤ b := by
  rw [← not_lt]
  induction a generalizing b with
  | nil => simp [componentsLe]
  | cons x xs ih =>
    cases b with
    | nil => simp [componentsLe]
    | cons y ys =>
      rw [componentsLe, List.cons_lt_cons_iff]
      split
      · next h =>
        rw [ih, h]
        simp
      · next h =>
        rw [← Component.lt_iff]
        simp [Ne.symm h, le_iff_lt_or_eq, h]

theorem le_iff (a b : RawPath) : le a b = true ↔ components a ≤ components b :=
  componentsLe_iff _ _

theorem same_iff (a b : RawPath) : same a b = true ↔ components a = components b := by
  rw [same, beq_iff_eq]

end Path

namespace Discovery

theorem dropRepeats_sublist (same : RawPath → RawPath → Bool) (paths : List RawPath) :
    (dropRepeats same paths).Sublist paths := by
  fun_induction dropRepeats same paths with
  | case1 => exact .slnil
  | case2 path => exact List.Sublist.refl _
  | case3 a b rest _ ih => exact ih.trans (.cons_cons a (.cons b (List.Sublist.refl rest)))
  | case4 a b rest _ ih => exact ih.cons_cons a

theorem exists_kept_of_mem {paths : List RawPath} {path : RawPath} (h : path ∈ paths) :
    ∃ kept ∈ dropRepeats Path.same paths, Path.components kept = Path.components path := by
  fun_induction dropRepeats Path.same paths generalizing path with
  | case1 => cases h
  | case2 _ => exact ⟨path, h, rfl⟩
  | case3 a b rest hsame ih =>
    rcases List.mem_cons.1 h with rfl | h
    · exact ih List.mem_cons_self
    · rcases List.mem_cons.1 h with rfl | h
      · obtain ⟨kept, hkept, heq⟩ := ih List.mem_cons_self
        exact ⟨kept, hkept, heq.trans ((Path.same_iff _ _).1 hsame)⟩
      · exact ih (List.mem_cons_of_mem a h)
  | case4 a b rest _ ih =>
    rcases List.mem_cons.1 h with rfl | h
    · exact ⟨path, List.mem_cons_self, rfl⟩
    · obtain ⟨kept, hkept, heq⟩ := ih h
      exact ⟨kept, List.mem_cons_of_mem a hkept, heq⟩

theorem pairwise_dropRepeats {paths : List RawPath}
    (h : paths.Pairwise fun a b => Path.components a ≤ Path.components b) :
    (dropRepeats Path.same paths).Pairwise fun a b => Path.components a < Path.components b := by
  fun_induction dropRepeats Path.same paths with
  | case1 => exact .nil
  | case2 path => exact List.pairwise_singleton _ path
  | case3 a b rest _ ih => exact ih (h.sublist (.cons_cons a (.cons b (List.Sublist.refl rest))))
  | case4 a b rest hsame ih =>
    obtain ⟨ha, hrest⟩ := List.pairwise_cons.1 h
    obtain ⟨hb, -⟩ := List.pairwise_cons.1 hrest
    have hne : Path.components a ≠ Path.components b := by rwa [Ne, ← Path.same_iff]
    have hab : Path.components a < Path.components b := lt_of_le_of_ne (ha b List.mem_cons_self) hne
    refine List.pairwise_cons.2 ⟨fun path hpath => ?_, ih hrest⟩
    rcases List.mem_cons.1 ((dropRepeats_sublist _ _).subset hpath) with rfl | hpath
    · exact hab
    · exact hab.trans_le (hb path hpath)

/-- The paths of a list by their steps, each once. -/
def arranged (paths : List RawPath) : List RawPath :=
  dropRepeats Path.same (paths.mergeSort Path.le)

theorem pairwise_arranged (paths : List RawPath) :
    (arranged paths).Pairwise fun a b => Path.components a < Path.components b := by
  refine pairwise_dropRepeats ((List.pairwise_mergeSort ?_ ?_ paths).imp (Path.le_iff _ _).1)
  · intro a b c hab hbc
    rw [Path.le_iff] at hab hbc ⊢
    exact hab.trans hbc
  · intro a b
    rw [Bool.or_eq_true, Path.le_iff, Path.le_iff]
    exact le_total _ _

theorem mem_of_mem_arranged {paths : List RawPath} {path : RawPath} (h : path ∈ arranged paths) :
    path ∈ paths :=
  List.mem_mergeSort.1 ((dropRepeats_sublist _ _).subset h)

theorem exists_mem_arranged {paths : List RawPath} {path : RawPath} (h : path ∈ paths) :
    ∃ kept ∈ arranged paths, Path.components kept = Path.components path :=
  exists_kept_of_mem (List.mem_mergeSort.2 h)

end Discovery

end TemplateLint
