import Mathlib.Data.List.Induction
import Mathlib.Data.List.Nodup
import TemplateLint.Finding.Grouping
import TemplateLint.Proofs.FirstOccurrences

/-!
# Grouping as a stable partition

Findings are put into groups one after the other, each behind the findings of its file. What this leads
to has no more history in it: there is one group for each path, in the order of first occurrence, and it
has the findings with that path in their order (`groupByFile_eq`). So a grouping has three properties
(`IsGrouping`): no path twice, no empty group, and in each group only findings with its path. Groups with
these properties are what their own findings are grouped into (`IsGrouping.groupByFile_flatMap`).

The reports on grouped findings leave out the paths of the findings, which the groups have. What is left
of a grouping still determines it (`groupByFile_eq_iff`).
-/

namespace TemplateLint

namespace FileFindings

/-- The findings of a list that are about a file. -/
def about (found : List Violation) (path : String) : FileFindings :=
  ⟨path, found.filter fun v => v.path = path⟩

theorem about_concat_self (found : List Violation) (v : Violation) :
    about (found ++ [v]) v.path = ⟨v.path, (about found v.path).found ++ [v]⟩ := by
  simp [about]

theorem about_concat_of_ne {found : List Violation} {v : Violation} {path : String}
    (h : path ≠ v.path) : about (found ++ [v]) path = about found path := by
  simp [about, h.symm]

theorem insert_append {v : Violation} {front : List FileFindings} (h : v.path ∉ front.map path)
    (back : List FileFindings) : insert v (front ++ back) = front ++ insert v back := by
  induction front with
  | nil => rfl
  | cons group front ih =>
    rw [List.map_cons, List.mem_cons, not_or] at h
    rw [List.cons_append, insert, if_neg (Ne.symm h.1), ih h.2, List.cons_append]

theorem insert_of_not_mem {v : Violation} {groups : List FileFindings}
    (h : v.path ∉ groups.map path) : insert v groups = groups ++ [⟨v.path, [v]⟩] := by
  have happend := insert_append h []
  rwa [List.append_nil] at happend

theorem insert_map_about {found : List Violation} {v : Violation} {paths : List String}
    (hnodup : paths.Nodup) (hmem : v.path ∈ paths) :
    insert v (paths.map (about found)) = paths.map (about (found ++ [v])) := by
  induction paths with
  | nil => cases hmem
  | cons path paths ih =>
    obtain ⟨hnot, hnodup⟩ := List.nodup_cons.1 hnodup
    rw [List.map_cons, List.map_cons, insert]
    split
    · next heq =>
      have hpath : path = v.path := heq
      subst hpath
      rw [about_concat_self]
      congr 1
      refine List.map_congr_left fun other hother => (about_concat_of_ne ?_).symm
      rintro rfl
      exact hnot hother
    · next hne =>
      have hne : path ≠ v.path := hne
      rw [about_concat_of_ne hne, ih hnodup (List.mem_of_ne_of_mem hne.symm hmem)]

theorem perm_flatMap_insert (v : Violation) (groups : List FileFindings) :
    ((insert v groups).flatMap found).Perm (groups.flatMap found ++ [v]) := by
  induction groups with
  | nil => exact List.Perm.refl _
  | cons group groups ih =>
    rw [insert]
    split
    · simp only [List.flatMap_cons, List.append_assoc]
      exact List.perm_append_comm.append_left _
    · simp only [List.flatMap_cons, List.append_assoc]
      exact ih.append_left _

end FileFindings

open FileFindings

variable {found other : List Violation}

theorem groupByFile_append (found more : List Violation) :
    groupByFile (found ++ more) = more.foldl (fun groups v => insert v groups) (groupByFile found) :=
  List.foldl_append

theorem groupByFile_concat (found : List Violation) (v : Violation) :
    groupByFile (found ++ [v]) = insert v (groupByFile found) :=
  groupByFile_append found [v]

/-- There is a group for each path that occurs, and it has all findings about the file. -/
theorem groupByFile_eq (found : List Violation) :
    groupByFile found = (found.map Violation.path).eraseDups.map (about found) := by
  induction found using List.reverseRecOn with
  | nil => rfl
  | append_singleton found v ih =>
    rw [groupByFile_concat, ih, List.map_append, List.map_singleton, eraseDups_concat]
    split
    · next hmem => exact insert_map_about (nodup_eraseDups _) (List.mem_eraseDups.2 hmem)
    · next hmem =>
      have hnone : (about found v.path).found = [] := by
        apply List.filter_eq_nil_iff.2
        intro w hw
        rw [decide_eq_true_iff]
        intro heq
        exact hmem (heq ▸ List.mem_map_of_mem hw)
      have hold : ∀ path ∈ (found.map Violation.path).eraseDups,
          about found path = about (found ++ [v]) path := by
        intro path hpath
        refine (about_concat_of_ne ?_).symm
        rintro rfl
        exact hmem (List.mem_eraseDups.1 hpath)
      rw [insert_of_not_mem (by simpa [about, Function.comp_def] using hmem), List.map_append,
        List.map_singleton, about_concat_self, hnone, List.map_congr_left hold, List.nil_append]

theorem paths_groupByFile (found : List Violation) :
    (groupByFile found).map FileFindings.path = (found.map Violation.path).eraseDups := by
  rw [groupByFile_eq, List.map_map]
  exact List.map_id _

theorem eq_about_of_mem {group : FileFindings} (h : group ∈ groupByFile found) :
    group = about found group.path := by
  rw [groupByFile_eq] at h
  obtain ⟨path, -, rfl⟩ := List.mem_map.1 h
  rfl

theorem perm_flatMap_groupByFile (found : List Violation) :
    ((groupByFile found).flatMap FileFindings.found).Perm found := by
  induction found using List.reverseRecOn with
  | nil => exact .nil
  | append_singleton found v ih =>
    rw [groupByFile_concat]
    exact (perm_flatMap_insert v _).trans (ih.append_right [v])

/-! ### Groupings -/

/-- Groups with paths of their own, each with findings and only with findings about its file. -/
structure IsGrouping (groups : List FileFindings) : Prop where
  nodup : (groups.map FileFindings.path).Nodup
  ne_nil : ∀ group ∈ groups, group.found ≠ []
  path_eq : ∀ group ∈ groups, ∀ v ∈ group.found, v.path = group.path

theorem isGrouping_groupByFile (found : List Violation) : IsGrouping (groupByFile found) where
  nodup := by
    rw [paths_groupByFile]
    exact nodup_eraseDups _
  ne_nil := by
    intro group hgroup
    have hpath : group.path ∈ found.map Violation.path := by
      rw [← List.mem_eraseDups, ← paths_groupByFile]
      exact List.mem_map_of_mem hgroup
    obtain ⟨v, hv, hsame⟩ := List.mem_map.1 hpath
    rw [eq_about_of_mem hgroup]
    exact List.ne_nil_of_mem (List.mem_filter.2 ⟨hv, by simpa using hsame⟩)
  path_eq := by
    intro group hgroup v hv
    rw [eq_about_of_mem hgroup] at hv
    simpa using (List.mem_filter.1 hv).2

/-- Findings about a file pass the groups of other files. -/
theorem foldl_insert_append {front : List FileFindings} {path : String}
    (hpath : path ∉ front.map FileFindings.path) {more : List Violation}
    (hmore : ∀ v ∈ more, v.path = path) (back : List FileFindings) :
    more.foldl (fun groups v => insert v groups) (front ++ back) =
      front ++ more.foldl (fun groups v => insert v groups) back := by
  induction more generalizing back with
  | nil => rfl
  | cons v more ih =>
    obtain ⟨hv, hmore⟩ := List.forall_mem_cons.1 hmore
    rw [List.foldl_cons, List.foldl_cons, insert_append (hv ▸ hpath), ih hmore]

theorem foldl_insert_self {path : String} {more : List Violation} (hmore : ∀ v ∈ more, v.path = path)
    (held : List Violation) :
    more.foldl (fun groups v => insert v groups) [⟨path, held⟩] = [⟨path, held ++ more⟩] := by
  induction more generalizing held with
  | nil => simp
  | cons v more ih =>
    obtain ⟨hv, hmore⟩ := List.forall_mem_cons.1 hmore
    rw [List.foldl_cons, FileFindings.insert, if_pos hv.symm, ih hmore]
    simp

namespace IsGrouping

variable {groups front back : List FileFindings}

theorem of_append (h : IsGrouping (front ++ back)) : IsGrouping front where
  nodup := by
    have hnodup := h.nodup
    rw [List.map_append] at hnodup
    exact hnodup.of_append_left
  ne_nil group hgroup := h.ne_nil group (List.mem_append_left _ hgroup)
  path_eq group hgroup := h.path_eq group (List.mem_append_left _ hgroup)

theorem of_cons {group : FileFindings} (h : IsGrouping (group :: groups)) : IsGrouping groups where
  nodup := (List.nodup_cons.1 h.nodup).2
  ne_nil other hother := h.ne_nil other (List.mem_cons_of_mem _ hother)
  path_eq other hother := h.path_eq other (List.mem_cons_of_mem _ hother)

theorem head_not_mem {group : FileFindings} (h : IsGrouping (group :: groups)) :
    group.path ∉ groups.map FileFindings.path :=
  (List.nodup_cons.1 h.nodup).1

theorem last_not_mem {group : FileFindings} (h : IsGrouping (front ++ [group])) :
    group.path ∉ front.map FileFindings.path := by
  have hnodup := h.nodup
  rw [List.map_append, List.map_singleton, ← List.concat_eq_append, List.nodup_concat] at hnodup
  exact hnodup.1

/-- The findings of a grouping are grouped into it again. -/
theorem groupByFile_flatMap (h : IsGrouping groups) :
    groupByFile (groups.flatMap FileFindings.found) = groups := by
  induction groups using List.reverseRecOn with
  | nil => rfl
  | append_singleton front group ih =>
    have hpath := h.last_not_mem
    have hne := h.ne_nil group (by simp)
    have hsame := h.path_eq group (by simp)
    obtain ⟨path, held⟩ := group
    cases held with
    | nil => exact absurd rfl hne
    | cons v held =>
      obtain ⟨hv, hheld⟩ := List.forall_mem_cons.1 hsame
      have hv : v.path = path := hv
      subst hv
      rw [List.flatMap_append, List.flatMap_singleton, groupByFile_append, ih h.of_append,
        List.foldl_cons, insert_of_not_mem hpath, foldl_insert_append hpath hheld,
        foldl_insert_self hheld, List.singleton_append]

end IsGrouping

/-! ### Findings that are grouped already -/

/-- Whether the findings about each file stand next to each other. -/
def Contiguous (found : List Violation) : Prop :=
  ∀ ⦃front v between w back⦄, found = front ++ v :: (between ++ w :: back) → w.path = v.path →
    ∀ u ∈ between, u.path = v.path

theorem Contiguous.of_append {more : List Violation} (h : Contiguous (found ++ more)) :
    Contiguous found := by
  intro front v between w back heq
  have hmore : found ++ more = front ++ v :: (between ++ w :: (back ++ more)) := by simp [heq]
  exact h hmore

/-- A finding about a file that was found before is about the file of the finding before it. -/
theorem Contiguous.path_last {v w : Violation} (h : Contiguous (found ++ [v] ++ [w]))
    (hmem : w.path ∈ (found ++ [v]).map Violation.path) : w.path = v.path := by
  rw [List.map_append, List.mem_append, List.map_singleton, List.mem_singleton] at hmem
  rcases hmem with hmem | hlast
  · obtain ⟨u, hu, hpath⟩ := List.mem_map.1 hmem
    obtain ⟨front, back, rfl⟩ := List.append_of_mem hu
    have hsplit : front ++ u :: back ++ [v] ++ [w] = front ++ u :: ((back ++ [v]) ++ w :: []) := by simp
    rw [← hpath, h hsplit hpath.symm v (by simp)]
  · exact hlast

/-- Behind a finding, its file has the last group. -/
theorem exists_last_group {v : Violation}
    (h : (groupByFile (found ++ [v])).flatMap FileFindings.found = found ++ [v]) :
    ∃ front group, groupByFile (found ++ [v]) = front ++ [group] ∧ group.path = v.path := by
  have hgrouping := isGrouping_groupByFile (found ++ [v])
  obtain hnil | ⟨front, group, hgroups⟩ := List.eq_nil_or_concat' (groupByFile (found ++ [v]))
  · rw [hnil] at h
    simp at h
  refine ⟨front, group, hgroups, ?_⟩
  have hmem : group ∈ groupByFile (found ++ [v]) := by simp [hgroups]
  obtain hnone | ⟨held, last, hheld⟩ := List.eq_nil_or_concat' group.found
  · exact absurd hnone (hgrouping.ne_nil group hmem)
  rw [hgroups, List.flatMap_append, List.flatMap_singleton, hheld, ← List.append_assoc] at h
  have hlast : last = v := by simpa using (List.append_inj' h rfl).2
  rw [← hlast, hgrouping.path_eq group hmem last (by simp [hheld])]

theorem Contiguous.flatMap_groupByFile (h : Contiguous found) :
    (groupByFile found).flatMap FileFindings.found = found := by
  induction found using List.reverseRecOn with
  | nil => rfl
  | append_singleton found w ih =>
    have hfound := ih h.of_append
    rw [groupByFile_concat]
    by_cases hmem : w.path ∈ (groupByFile found).map FileFindings.path
    · -- The finding goes into the last group, since the finding before it did.
      rw [paths_groupByFile, List.mem_eraseDups] at hmem
      obtain rfl | ⟨init, v, rfl⟩ := List.eq_nil_or_concat' found
      · cases hmem
      obtain ⟨front, group, hgroups, hgroup⟩ := exists_last_group hfound
      have hgrouping : IsGrouping (front ++ [group]) := hgroups ▸ isGrouping_groupByFile _
      have hpath : group.path = w.path := hgroup.trans (h.path_last hmem).symm
      rw [hgroups] at hfound
      rw [hgroups, insert_append (hpath ▸ hgrouping.last_not_mem), FileFindings.insert, if_pos hpath,
        ← hfound]
      simp
    · rw [insert_of_not_mem hmem, List.flatMap_append, hfound]
      rfl

theorem IsGrouping.contiguous {groups : List FileFindings} (h : IsGrouping groups) :
    Contiguous (groups.flatMap FileFindings.found) := by
  induction groups with
  | nil =>
    intro front v between w back heq
    simp at heq
  | cons group groups ih =>
    intro front v between w back heq hpath
    have hrest := ih h.of_cons
    rw [List.flatMap_cons] at heq
    have hother : ∀ u ∈ groups.flatMap FileFindings.found, u.path ≠ group.path := by
      intro u hu hsame
      obtain ⟨other, hmem, hu⟩ := List.mem_flatMap.1 hu
      apply h.head_not_mem
      rw [← hsame, h.path_eq other (List.mem_cons_of_mem _ hmem) u hu]
      exact List.mem_map_of_mem hmem
    rcases List.append_eq_append_iff.1 heq with ⟨more, -, hmore⟩ | ⟨tail, hfound, htail⟩
    · exact hrest hmore hpath
    cases tail with
    | nil =>
      have hsplit : groups.flatMap FileFindings.found = [] ++ v :: (between ++ w :: back) := htail.symm
      exact hrest hsplit hpath
    | cons first tail =>
      rw [List.cons_append, List.cons.injEq] at htail
      obtain ⟨rfl, htail⟩ := htail
      have hv : v.path = group.path := h.path_eq group (by simp) v (by simp [hfound])
      rcases List.append_eq_append_iff.1 htail with ⟨more, hmore, -⟩ | ⟨more, -, hmore⟩
      · intro u hu
        rw [hv, h.path_eq group (by simp) u (by simp [hfound, hmore, hu])]
      · exact absurd (hpath.trans hv) (hother w (by simp [hmore]))

/-- Grouping moves findings just if those about a file do not stand together. -/
theorem flatMap_groupByFile_eq_iff :
    (groupByFile found).flatMap FileFindings.found = found ↔ Contiguous found := by
  refine ⟨fun h => ?_, Contiguous.flatMap_groupByFile⟩
  rw [← h]
  exact (isGrouping_groupByFile found).contiguous

/-! ### What reports keep of a grouping -/

/-- A finding without the path. -/
def Violation.entry (v : Violation) : Position × Severity × String :=
  (v.position, v.severity, v.message)

/-- The findings about a file without the path, which is said once. -/
def FileFindings.entries (group : FileFindings) : String × List (Position × Severity × String) :=
  (group.path, group.found.map Violation.entry)

/-- The group that the findings without paths come from. -/
def FileFindings.ofEntries (entries : String × List (Position × Severity × String)) : FileFindings :=
  ⟨entries.1, entries.2.map fun (position, severity, message) =>
    ⟨entries.1, position, message, severity⟩⟩

theorem FileFindings.ofEntries_entries {group : FileFindings}
    (h : ∀ v ∈ group.found, v.path = group.path) : ofEntries group.entries = group := by
  have hfound : group.found.map (fun v => (⟨group.path, v.position, v.message, v.severity⟩ : Violation)) =
      group.found := by
    refine (List.map_congr_left fun v hv => ?_).trans (List.map_id _)
    rw [← h v hv]
    rfl
  rw [ofEntries, entries, List.map_map]
  exact congrArg (FileFindings.mk group.path) hfound

theorem IsGrouping.map_ofEntries {groups : List FileFindings} (h : IsGrouping groups) :
    (groups.map FileFindings.entries).map FileFindings.ofEntries = groups := by
  rw [List.map_map]
  exact (List.map_congr_left fun group hgroup => ofEntries_entries (h.path_eq group hgroup)).trans
    (List.map_id _)

theorem groupByFile_eq_iff :
    groupByFile found = groupByFile other ↔
      (groupByFile found).map FileFindings.entries = (groupByFile other).map FileFindings.entries := by
  refine ⟨congrArg _, fun h => ?_⟩
  rw [← (isGrouping_groupByFile found).map_ofEntries, h, (isGrouping_groupByFile other).map_ofEntries]

end TemplateLint
