import Mathlib
import TemplateLint.Proofs.Files.Links
import TemplateLint.Proofs.Files.PathOrder
import TemplateLint.Proofs.FirstOccurrences

/-!
# Groups of requested paths

What is found for a path depends on the path and the file system alone. So a path that is requested
again is found to have the files that its group has already, and nothing is added: a run over requested
paths is the run over their first occurrences, and there each path makes a group of its own or none
(`discover_eq`).

The files of a group come from one file or from one search, and a search arranges its paths so that no
path occurs twice.
-/

namespace TemplateLint

namespace Discovery

/-! ### Results of a list -/

section Results

variable {ε α β : Type} {f : α → Except ε β}

/-- The results of all elements, or the error of the first one that has one. -/
theorem mapM_cases (f : α → Except ε β) (list : List α) :
    (∃ results, list.mapM f = .ok results ∧ List.Forall₂ (fun a b => f a = .ok b) list results) ∨
      ∃ before a behind e, list = before ++ a :: behind ∧ (∀ b ∈ before, ∃ result, f b = .ok result) ∧
        f a = .error e ∧ list.mapM f = .error e := by
  induction list with
  | nil => exact .inl ⟨[], rfl, .nil⟩
  | cons first rest ih =>
    rw [List.mapM_cons]
    cases hfirst : f first with
    | error e => exact .inr ⟨[], first, rest, e, rfl, by simp, hfirst, rfl⟩
    | ok result =>
      rcases ih with ⟨results, hmap, hall⟩ | ⟨before, a, behind, e, rfl, hbefore, hfails, hmap⟩
      · rw [hmap]
        exact .inl ⟨result :: results, rfl, .cons hfirst hall⟩
      · rw [hmap]
        exact .inr ⟨first :: before, a, behind, e, rfl,
          List.forall_mem_cons.2 ⟨⟨result, hfirst⟩, hbefore⟩, hfails, rfl⟩

theorem exists_mapM {list : List α} (h : ∀ a ∈ list, ∃ result, f a = .ok result) :
    ∃ results, list.mapM f = .ok results ∧ List.Forall₂ (fun a b => f a = .ok b) list results := by
  rcases mapM_cases f list with hall | ⟨before, a, behind, e, rfl, -, hfails, -⟩
  · exact hall
  · obtain ⟨result, hresult⟩ := h a (by simp)
    cases hfails.symm.trans hresult

theorem exists_of_map_mapM {γ : Type} {g : List β → γ} {list : List α} {c : γ}
    (h : (list.mapM f).map g = .ok c) :
    ∃ results, List.Forall₂ (fun a b => f a = .ok b) list results ∧ c = g results := by
  rcases mapM_cases f list with ⟨results, hmap, hall⟩ | ⟨_, _, _, e, -, -, -, hmap⟩
  · rw [hmap] at h
    exact ⟨results, hall, (Except.ok.inj h).symm⟩
  · rw [hmap] at h
    cases h

theorem exists_of_forall₂ {list : List α} {results : List β}
    (h : List.Forall₂ (fun a b => f a = .ok b) list results) {a : α} (hmem : a ∈ list) :
    ∃ result, f a = .ok result := by
  induction h with
  | nil => cases hmem
  | @cons first result _ _ hresult _ ih =>
    rcases List.mem_cons.1 hmem with rfl | hmem
    · exact ⟨result, hresult⟩
    · exact ih hmem

theorem mem_flatten_iff {f : α → Except ε (List β)} {list : List α} {results : List (List β)}
    (h : List.Forall₂ (fun a b => f a = .ok b) list results) {b : β} :
    b ∈ results.flatten ↔ ∃ a ∈ list, ∃ result, f a = .ok result ∧ b ∈ result := by
  induction h with
  | nil => simp
  | cons hfirst _ ih => simp [ih, hfirst]

end Results

variable (fs : FileSystem) (exclude extensions : List String)

/-! ### The files of one request -/

/-- The file at a path below a searched directory. -/
def fileAt (requested : String) (root path : RawPath) : DiscoveredFile :=
  ⟨path, displayPath requested (stepsFrom root path)⟩

/-- Paths below a searched directory in their order, without those in excluded folders. -/
def keptPaths (root : RawPath) (exclude : List String) (paths : List RawPath) : List RawPath :=
  (arranged paths).filter fun path => !isExcluded exclude (stepsFrom root path)

def keptFiles (requested : String) (root : RawPath) (exclude : List String) (paths : List RawPath) :
    List DiscoveredFile :=
  (keptPaths root exclude paths).map (fileAt requested root)

theorem scan_eq {fs : FileSystem} {requested : String} {root : RawPath}
    (h : fs.canonical requested = .ok root) :
    scan fs requested exclude extensions =
      (extensions.mapM (withExtension fs root)).map fun found =>
        keptFiles requested root exclude found.flatten := by
  rw [scan, h]
  show (extensions.mapM (withExtension fs root) >>= fun found =>
    .ok (keptFiles requested root exclude found.flatten)) = _
  cases extensions.mapM (withExtension fs root) <;> rfl

/-- A requested path leads to a directory that is searched, or else to one file or none, or there is no
absolute path of what it leads to; and this is so whatever the filters are. -/
inductive Request (fs : FileSystem) (requested : String) : Prop where
  | fixed (place? : Option Place) (present : ∀ place ∈ place?, ∃ entry, fs.entry? place = some entry)
      (files : ∀ exclude extensions, filesFor fs requested exclude extensions =
        .ok (place?.toList.map fun place => ⟨place.path, requested⟩))
  | refused (error : FileError)
      (files : ∀ exclude extensions, filesFor fs requested exclude extensions =
        .error (.unreadable requested error))
  | directory (place : Place) (resolves : fs.resolve requested = .ok place)
      (isDirectory : fs.isDirectoryAt place = true)
      (files : ∀ exclude extensions, filesFor fs requested exclude extensions =
        (extensions.mapM (withExtension fs place.path)).map fun found =>
          keptFiles requested place.path exclude found.flatten)

theorem exists_resolve_of_target {fs : FileSystem} {path : RawPath} {test : Entry → Bool}
    (h : (fs.target? path).any test = true) :
    ∃ place, fs.resolve path = .ok place ∧ (fs.entry? place).any test = true := by
  unfold FileSystem.target? at h
  split at h
  · next place hplace => exact ⟨place, hplace, h⟩
  · simp at h

theorem exists_file_of_isFile {fs : FileSystem} {path : RawPath} (h : fs.isFile path = true) :
    ∃ place content, fs.resolve path = .ok place ∧ fs.entry? place = some (.file content) := by
  obtain ⟨place, hplace, hat⟩ := exists_resolve_of_target h
  obtain ⟨entry, hentry, hkind⟩ := (Option.any_eq_true _ _).1 hat
  cases entry with
  | file content => exact ⟨place, content, hplace, hentry⟩
  | directory => cases hkind
  | link target => cases hkind
  | special content => cases hkind

theorem isFile_of_resolve {path : RawPath} {place : Place} {content : ByteArray}
    (hplace : fs.resolve path = .ok place) (hat : fs.entry? place = some (.file content)) :
    fs.isFile path = true := by
  rw [FileSystem.isFile, FileSystem.target?, hplace]
  exact (Option.any_eq_true _ _).2 ⟨_, hat, rfl⟩

theorem isDirectory_of_resolve {path : RawPath} {place : Place} (hplace : fs.resolve path = .ok place)
    (hat : fs.isDirectoryAt place = true) : fs.isDirectory path = true := by
  rw [FileSystem.isDirectory, FileSystem.target?, hplace]
  exact hat

theorem not_isFile_of_isDirectory {path : RawPath} (h : fs.isDirectory path = true) :
    ¬ fs.isFile path = true := by
  rw [FileSystem.isDirectory] at h
  rw [FileSystem.isFile]
  cases hentry : fs.target? path with
  | none => simp
  | some entry =>
    rw [hentry] at h
    cases entry <;> simp_all [Entry.isDirectory, Entry.isFile]

/-- A path that leads to a file is that file. -/
theorem filesFor_file {requested : String} {place : Place} {content : ByteArray}
    (hplace : fs.resolve requested = .ok place) (hat : fs.entry? place = some (.file content))
    (hreal : fs.realPlace requested = .ok place) (exclude extensions : List String) :
    filesFor fs requested exclude extensions = .ok [⟨place.path, requested⟩] := by
  rw [filesFor, if_pos (isFile_of_resolve fs hplace hat), FileSystem.canonical, hreal]
  rfl

/-- A path that leads to a directory is searched there. -/
theorem filesFor_directory {requested : String} {place : Place} (hplace : fs.resolve requested = .ok place)
    (hat : fs.isDirectoryAt place = true) (hreal : fs.realPlace requested = .ok place)
    (exclude extensions : List String) :
    filesFor fs requested exclude extensions =
      (extensions.mapM (withExtension fs place.path)).map fun found =>
        keptFiles requested place.path exclude found.flatten := by
  have hdirectory := isDirectory_of_resolve fs hplace hat
  rw [filesFor, if_neg (not_isFile_of_isDirectory fs hdirectory), if_pos hdirectory, scan_eq]
  rw [FileSystem.canonical, hreal]
  rfl

/-- Without an absolute path for what is there, there are no files to search for. -/
theorem filesFor_refused {requested : String} {place : Place} {error : FileError}
    (hplace : fs.resolve requested = .ok place)
    (hat : fs.isDirectoryAt place = true ∨ ∃ content, fs.entry? place = some (.file content))
    (hreal : fs.realPlace requested = .error error) (exclude extensions : List String) :
    filesFor fs requested exclude extensions = .error (.unreadable requested error) := by
  have hcanonical : fs.canonical requested = .error error := by
    rw [FileSystem.canonical, hreal]
    rfl
  rcases hat with hat | ⟨content, hat⟩
  · have hdirectory := isDirectory_of_resolve fs hplace hat
    rw [filesFor, if_neg (not_isFile_of_isDirectory fs hdirectory), if_pos hdirectory, scan, hcanonical]
    rfl
  · rw [filesFor, if_pos (isFile_of_resolve fs hplace hat), hcanonical]
    rfl

theorem request_cases (requested : String) : Request fs requested := by
  by_cases hfile : fs.isFile requested = true
  · obtain ⟨place, content, hplace, hat⟩ := exists_file_of_isFile hfile
    cases hreal : fs.realPlace requested with
    | error error => exact .refused error (filesFor_refused fs hplace (.inr ⟨content, hat⟩) hreal)
    | ok real =>
      obtain rfl := FileSystem.eq_of_realPlace hreal hplace
      exact .fixed (some real) (by simp [hat]) (filesFor_file fs hplace hat hreal)
  by_cases hdirectory : fs.isDirectory requested = true
  · obtain ⟨place, hplace, hat⟩ := exists_resolve_of_target hdirectory
    cases hreal : fs.realPlace requested with
    | error error => exact .refused error (filesFor_refused fs hplace (.inl hat) hreal)
    | ok real =>
      obtain rfl := FileSystem.eq_of_realPlace hreal hplace
      exact .directory real hplace hat (filesFor_directory fs hplace hat hreal)
  · refine .fixed none (by simp) fun exclude extensions => ?_
    rw [filesFor, if_neg hfile, if_neg hdirectory]
    rfl

theorem pairwise_keptFiles (requested : String) (root : RawPath) (paths : List RawPath) :
    (keptFiles requested root exclude paths).Pairwise fun a b =>
      Path.components a.realPath < Path.components b.realPath :=
  List.pairwise_map.2 ((pairwise_arranged paths).sublist List.filter_sublist)

variable {fs exclude extensions}

theorem pairwise_filesFor {requested : String} {files : List DiscoveredFile}
    (h : filesFor fs requested exclude extensions = .ok files) :
    files.Pairwise fun a b => Path.components a.realPath < Path.components b.realPath := by
  cases request_cases fs requested with
  | fixed place? _ hfiles =>
    cases (hfiles exclude extensions).symm.trans h
    cases place? <;> simp
  | refused error hfiles => cases (hfiles exclude extensions).symm.trans h
  | directory place _ _ hfiles =>
    rw [hfiles] at h
    obtain ⟨found, -, rfl⟩ := exists_of_map_mapM h
    exact pairwise_keptFiles _ _ _ _

/-! ### Groups -/

/-- The group that files for one request make, if there are any. -/
def asGroup (requested : String) (files : List DiscoveredFile) : List PathGroup :=
  if files.isEmpty then [] else [⟨requested, files⟩]

/-- The group of one request, or nothing. -/
def groupFor (fs : FileSystem) (exclude extensions : List String) (requested : String) :
    Except Failure (List PathGroup) :=
  (filesFor fs requested exclude extensions).map (asGroup requested)

theorem addMissing_of_subset {known more : List DiscoveredFile} (h : more ⊆ known) :
    addMissing known more = known := by
  induction more with
  | nil => rfl
  | cons file more ih =>
    have hknown : (known.any fun other => Path.same other.realPath file.realPath) = true :=
      List.any_eq_true.2 ⟨file, h List.mem_cons_self, (Path.same_iff _ _).2 rfl⟩
    rw [addMissing, List.foldl_cons, if_pos hknown]
    exact ih fun other hother => h (List.mem_cons_of_mem file hother)

theorem addGroup_of_mem {groups : List PathGroup} {requested : String} {files : List DiscoveredFile}
    (h : ∀ group ∈ groups, group.requested = requested → group.files = files)
    (hmem : ⟨requested, files⟩ ∈ groups) : addGroup requested files groups = groups := by
  induction groups with
  | nil => cases hmem
  | cons group groups ih =>
    rw [addGroup]
    split
    · next hsame =>
      have hfiles := h group List.mem_cons_self hsame
      rw [hfiles, addMissing_of_subset (List.Subset.refl files), ← hfiles, ← hsame]
    · next hother =>
      have hrest : (⟨requested, files⟩ : PathGroup) ∈ groups := by
        rcases List.mem_cons.1 hmem with rfl | hmem
        · exact absurd rfl hother
        · exact hmem
      rw [ih (fun other hmem => h other (List.mem_cons_of_mem group hmem)) hrest]

theorem addGroup_of_not_mem {groups : List PathGroup} {requested : String}
    (h : requested ∉ groups.map PathGroup.requested) (files : List DiscoveredFile) :
    addGroup requested files groups = groups ++ [⟨requested, files⟩] := by
  induction groups with
  | nil => rfl
  | cons group groups ih =>
    rw [List.map_cons, List.mem_cons, not_or] at h
    rw [addGroup, if_neg (Ne.symm h.1), ih h.2, List.cons_append]

/-! ### All requests -/

theorem groupFor_eq_ok_iff {requested : String} {result : List PathGroup} :
    groupFor fs exclude extensions requested = .ok result ↔
      ∃ files, filesFor fs requested exclude extensions = .ok files ∧
        result = asGroup requested files := by
  rw [groupFor]
  cases filesFor fs requested exclude extensions <;> simp [Except.map, eq_comm]

theorem mem_asGroup_iff {requested : String} {files : List DiscoveredFile} {group : PathGroup} :
    group ∈ asGroup requested files ↔
      group.requested = requested ∧ group.files = files ∧ files ≠ [] := by
  cases files with
  | nil => simp [asGroup]
  | cons file files =>
    cases group
    simp [asGroup]

/-- Groups that the requests made one after the other. -/
abbrev Gathered (fs : FileSystem) (exclude extensions paths : List String)
    (results : List (List PathGroup)) : Prop :=
  List.Forall₂ (fun requested result => groupFor fs exclude extensions requested = .ok result)
    paths results

namespace Gathered

variable {paths : List String} {results : List (List PathGroup)}

theorem mem_iff (h : Gathered fs exclude extensions paths results) {group : PathGroup} :
    group ∈ results.flatten ↔ group.requested ∈ paths ∧ group.files ≠ [] ∧
      filesFor fs group.requested exclude extensions = .ok group.files := by
  simp only [mem_flatten_iff h, groupFor_eq_ok_iff]
  constructor
  · rintro ⟨requested, hmem, _, ⟨files, hfiles, rfl⟩, hgroup⟩
    obtain ⟨rfl, rfl, hne⟩ := mem_asGroup_iff.1 hgroup
    exact ⟨hmem, hne, hfiles⟩
  · rintro ⟨hmem, hne, hfiles⟩
    exact ⟨group.requested, hmem, _, ⟨group.files, hfiles, rfl⟩, mem_asGroup_iff.2 ⟨rfl, rfl, hne⟩⟩

theorem requested_sublist (h : Gathered fs exclude extensions paths results) :
    (results.flatten.map PathGroup.requested).Sublist paths := by
  induction h with
  | nil => exact .slnil
  | @cons requested result paths results hresult _ ih =>
    obtain ⟨files, -, rfl⟩ := groupFor_eq_ok_iff.1 hresult
    rw [List.flatten_cons, List.map_append]
    cases files with
    | nil => exact ih.cons requested
    | cons file files => exact ih.cons_cons requested

theorem exists_files (h : Gathered fs exclude extensions paths results) {requested : String}
    (hmem : requested ∈ paths) :
    ∃ files, filesFor fs requested exclude extensions = .ok files := by
  obtain ⟨result, hresult⟩ := exists_of_forall₂ h hmem
  obtain ⟨files, hfiles, -⟩ := groupFor_eq_ok_iff.1 hresult
  exact ⟨files, hfiles⟩

end Gathered

/-- One more request. -/
def add (fs : FileSystem) (exclude extensions : List String) (groups : List PathGroup)
    (requested : String) : Except Failure (List PathGroup) := do
  let files ← filesFor fs requested exclude extensions
  return if files.isEmpty then groups else addGroup requested files groups

theorem discover_append (fs : FileSystem) (exclude extensions before behind : List String) :
    discover fs (before ++ behind) exclude extensions =
      (discover fs before exclude extensions >>= fun groups =>
        behind.foldlM (add fs exclude extensions) groups) :=
  List.foldlM_append

theorem add_of_mem {paths : List String} {results : List (List PathGroup)} {requested : String}
    (h : Gathered fs exclude extensions paths results) (hmem : requested ∈ paths) :
    add fs exclude extensions results.flatten requested = .ok results.flatten := by
  obtain ⟨files, hfiles⟩ := h.exists_files hmem
  rw [add, hfiles]
  show Except.ok (if files.isEmpty then results.flatten else _) = _
  split
  · rfl
  · next hne =>
    rw [addGroup_of_mem]
    · intro group hgroup hrequested
      obtain ⟨-, -, hok⟩ := h.mem_iff.1 hgroup
      rw [hrequested, hfiles] at hok
      exact (Except.ok.inj hok).symm
    · exact h.mem_iff.2 ⟨hmem, by simpa using hne, hfiles⟩

theorem add_of_not_mem {paths : List String} {results : List (List PathGroup)} {requested : String}
    (h : Gathered fs exclude extensions paths results) (hmem : requested ∉ paths) :
    add fs exclude extensions results.flatten requested =
      (groupFor fs exclude extensions requested).map (results.flatten ++ ·) := by
  rw [add, groupFor]
  cases filesFor fs requested exclude extensions with
  | error e => rfl
  | ok files =>
    show Except.ok (if files.isEmpty then results.flatten else _) =
      Except.ok (results.flatten ++ asGroup requested files)
    rw [asGroup]
    split
    · rw [List.append_nil]
    · rw [addGroup_of_not_mem]
      exact fun hrequested => hmem (h.requested_sublist.subset hrequested)

/-- The groups are those of the different requests, in the order in which these come first. -/
theorem discover_eq (fs : FileSystem) (paths exclude extensions : List String) :
    discover fs paths exclude extensions =
      (paths.eraseDups.mapM (groupFor fs exclude extensions)).map List.flatten := by
  induction paths using List.reverseRecOn with
  | nil => rfl
  | append_singleton paths requested ih =>
    rw [discover_append, ih, eraseDups_concat]
    simp only [List.foldlM_cons, List.foldlM_nil, bind_pure]
    rcases mapM_cases (groupFor fs exclude extensions) paths.eraseDups with
      ⟨results, hmap, hall⟩ | ⟨_, _, _, e, -, -, -, hmap⟩
    · rw [hmap]
      show add fs exclude extensions results.flatten requested = _
      split
      · next hmem => rw [add_of_mem hall (List.mem_eraseDups.2 hmem), hmap]; rfl
      · next hmem =>
        rw [add_of_not_mem hall (mt List.mem_eraseDups.1 hmem), List.mapM_append, hmap, List.mapM_cons,
          List.mapM_nil]
        cases groupFor fs exclude extensions requested with
        | error e => rfl
        | ok result => simp [Except.map, bind, Except.bind, pure, Except.pure]
    · rw [hmap]
      split
      · rw [hmap]; rfl
      · rw [List.mapM_append, hmap]; rfl

theorem discover_single (fs : FileSystem) (requested : String) (exclude extensions : List String) :
    discover fs [requested] exclude extensions = groupFor fs exclude extensions requested := by
  rw [discover_eq, List.eraseDups_cons, List.filter_nil, List.eraseDups_nil, List.mapM_cons,
    List.mapM_nil]
  cases groupFor fs exclude extensions requested with
  | error e => rfl
  | ok result => simp [Except.map, bind, Except.bind, pure, Except.pure]

theorem exists_discover {paths : List String}
    (h : ∀ requested ∈ paths, ∃ result, groupFor fs exclude extensions requested = .ok result) :
    ∃ groups, discover fs paths exclude extensions = .ok groups := by
  obtain ⟨results, hmap, -⟩ := exists_mapM fun requested hmem =>
    h requested (List.mem_eraseDups.1 hmem)
  rw [discover_eq, hmap]
  exact ⟨results.flatten, rfl⟩

theorem discover_of_first_failure {before behind : List String} {requested : String} {e : Failure}
    (hbefore : ∀ other ∈ before, ∃ result, groupFor fs exclude extensions other = .ok result)
    (h : groupFor fs exclude extensions requested = .error e) :
    discover fs (before ++ requested :: behind) exclude extensions = .error e := by
  obtain ⟨groups, hdiscover⟩ := exists_discover hbefore
  have hfiles : filesFor fs requested exclude extensions = .error e := by
    rw [groupFor] at h
    cases hfiles : filesFor fs requested exclude extensions with
    | error e' =>
      rw [hfiles] at h
      exact congrArg _ (Except.error.inj h)
    | ok files =>
      rw [hfiles] at h
      cases h
  have hadd : add fs exclude extensions groups requested = .error e := by
    rw [add, hfiles]
    rfl
  rw [discover_append, hdiscover]
  show add fs exclude extensions groups requested >>= _ = _
  rw [hadd]
  rfl

theorem exists_first_failure {paths : List String} {e : Failure}
    (h : discover fs paths exclude extensions = .error e) :
    ∃ before requested behind, paths = before ++ requested :: behind ∧
      (∀ other ∈ before, ∃ result, groupFor fs exclude extensions other = .ok result) ∧
      groupFor fs exclude extensions requested = .error e := by
  rcases mapM_cases (groupFor fs exclude extensions) paths with
    ⟨results, -, hall⟩ | ⟨before, requested, behind, e', rfl, hbefore, hfails, -⟩
  · obtain ⟨groups, hgroups⟩ := exists_discover fun requested hmem => exists_of_forall₂ hall hmem
    cases h.symm.trans hgroups
  · cases h.symm.trans (discover_of_first_failure hbefore hfails)
    exact ⟨before, requested, behind, rfl, hbefore, hfails⟩

theorem gathered_of_discover {paths : List String} {groups : List PathGroup}
    (h : discover fs paths exclude extensions = .ok groups) :
    ∃ results, Gathered fs exclude extensions paths.eraseDups results ∧ groups = results.flatten := by
  rw [discover_eq] at h
  exact exists_of_map_mapM h

theorem eraseDups_of_repeated {before : List String} {requested : String} (h : requested ∈ before)
    (behind : List String) :
    (before ++ requested :: behind).eraseDups = (before ++ behind).eraseDups := by
  rw [List.eraseDups_append, List.eraseDups_append]
  simp [List.removeAll, h]

end Discovery

open Discovery in
/-- **Requests are grouped by their first occurrences.** The groups are those that the different
requests have alone, and a failure is that of the first request that fails alone. So every group is
there once and in the order of the requests, holds a file, and has no path twice; and a path that is
requested again changes nothing. -/
theorem discover_first_occurrences (fs : FileSystem) (paths exclude extensions : List String) :
    let found := fun requests => discover fs requests exclude extensions
    found paths = (paths.eraseDups.mapM fun requested => found [requested]).map List.flatten ∧
      (∀ e, found paths = .error e ↔ ∃ before requested behind, paths = before ++ requested :: behind ∧
        (∀ other ∈ before, ∃ groups, found [other] = .ok groups) ∧ found [requested] = .error e) ∧
      (∀ groups, found paths = .ok groups →
        (groups.map PathGroup.requested).Sublist paths.eraseDups ∧
          (groups.map PathGroup.requested).Nodup ∧
          ∀ group ∈ groups, group.files ≠ [] ∧
            group.files.Pairwise fun a b => ¬ Path.same a.realPath b.realPath) ∧
      ∀ before requested behind, requested ∈ before →
        found (before ++ requested :: behind) = found (before ++ behind) := by
  intro found
  have hsingle : ∀ requested, found [requested] = groupFor fs exclude extensions requested :=
    fun requested => discover_single fs requested exclude extensions
  refine ⟨?_, fun e => ⟨fun h => ?_, ?_⟩, fun groups h => ?_, fun before requested behind h => ?_⟩
  · rw [funext hsingle]
    exact discover_eq fs paths exclude extensions
  · obtain ⟨before, requested, behind, hsplit, hbefore, hfails⟩ := exists_first_failure h
    refine ⟨before, requested, behind, hsplit, fun other hother => ?_, ?_⟩
    · rw [hsingle]
      exact hbefore other hother
    · rw [hsingle, hfails]
  · rintro ⟨before, requested, behind, rfl, hbefore, hfails⟩
    simp only [hsingle] at hbefore hfails
    exact discover_of_first_failure hbefore hfails
  · obtain ⟨results, hall, rfl⟩ := gathered_of_discover h
    refine ⟨hall.requested_sublist, hall.requested_sublist.nodup (nodup_eraseDups paths), ?_⟩
    intro group hgroup
    obtain ⟨-, hne, hfiles⟩ := hall.mem_iff.1 hgroup
    refine ⟨hne, (pairwise_filesFor hfiles).imp fun hlt => ?_⟩
    rw [Path.same_iff]
    exact hlt.ne
  · show discover _ _ _ _ = discover _ _ _ _
    rw [discover_eq, discover_eq, eraseDups_of_repeated h]

/-- Two files, of which the first is asked for again behind a path that leads nowhere. -/
theorem discover_first_occurrences_two_files :
    let fs : FileSystem :=
      { entries := [(["b"], .file "".toUTF8), (["a"], .file "".toUTF8)] }
    "b" ∈ ["b", "c", "a"] ∧
      discover fs ["b", "c", "a", "b"] [] [] =
        .ok [⟨"b", [⟨"/b", "b"⟩]⟩, ⟨"a", [⟨"/a", "a"⟩]⟩] ∧
      ["b", "a"].Sublist ["b", "c", "a"] := by
  intro fs
  have hfound : discover fs ["b", "c", "a"] [] [] =
      .ok [⟨"b", [⟨"/b", "b"⟩]⟩, ⟨"a", [⟨"/a", "a"⟩]⟩] := by cbv
  obtain ⟨-, -, hgroups, hrepeat⟩ := discover_first_occurrences fs ["b", "c", "a"] [] []
  have hmem : "b" ∈ ["b", "c", "a"] := by decide
  exact ⟨hmem, (hrepeat ["b", "c", "a"] "b" [] hmem).trans hfound, (hgroups _ hfound).1⟩

end TemplateLint
