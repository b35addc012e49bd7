import TemplateLint.Proofs.Files.Grouping
import TemplateLint.Proofs.Files.Walk

/-!
# What the filters of a search change

A search collects the paths for one extension after the other, arranges them and leaves out those in
excluded folders. Once arranged, the paths depend on which paths were found and not on when, and whether
a path is left out depends on which folders are excluded. So both filters count as sets, and a search
with more extensions or fewer exclusions finds the same files and perhaps some between them
(`keptFiles_paths_sublist`). Groups go through one after the other, so what holds of the files for one
request holds of all groups (`discover_of_each`).

Two files are the same if they are shown as the same text and their paths have the same steps. An
extension with a slash in it can spell a path in more than one way, and which spelling is kept is a
matter of which was found first. Without slashes every path is spelled by its names only.
-/

namespace TemplateLint

/-- What makes a file the same as another one: the steps to it, and what it is shown as. -/
def DiscoveredFile.identity (file : DiscoveredFile) : List Path.Component × String :=
  (Path.components file.realPath, file.displayPath)

/-- What makes a group the same as another one. -/
def PathGroup.identity (group : PathGroup) : String × List (List Path.Component × String) :=
  (group.requested, group.files.map DiscoveredFile.identity)

/-- Some of the groups, each with some of its files, as far as a key tells files apart. -/
def PathGroup.ArePart {α : Type} (key : DiscoveredFile → α) (parts groups : List PathGroup) : Prop :=
  List.SublistForall₂ (fun part group => part.requested = group.requested ∧
    (part.files.map key).Sublist (group.files.map key)) parts groups

namespace Discovery

variable {fs : FileSystem} {requested : String} {root : RawPath}
  {exclude exclude' extensions extensions' requests : List String} {paths paths' : List RawPath}

/-! ### Paths below a directory -/

theorem isExcluded_mono (h : exclude ⊆ exclude') {steps : List Path.Component}
    (hsteps : isExcluded exclude steps = true) : isExcluded exclude' steps = true := by
  obtain ⟨entry, hentry, htest⟩ := List.any_eq_true.1 hsteps
  exact List.any_eq_true.2 ⟨entry, h hentry, htest⟩

theorem isExcluded_congr (h : ∀ entry, entry ∈ exclude' ↔ entry ∈ exclude) :
    isExcluded exclude' = isExcluded exclude := by
  funext steps
  rw [Bool.eq_iff_iff]
  exact ⟨isExcluded_mono fun entry => (h entry).1, isExcluded_mono fun entry => (h entry).2⟩

theorem identity_keptFiles (requested : String) (root : RawPath) (exclude : List String)
    (paths : List RawPath) :
    (keptFiles requested root exclude paths).map DiscoveredFile.identity =
      (((arranged paths).map Path.components).filter fun steps =>
        !isExcluded exclude (stepsBetween (Path.components root) steps)).map fun steps =>
          (steps, displayPath requested (stepsBetween (Path.components root) steps)) := by
  rw [keptFiles, keptPaths, List.filter_map, List.map_map, List.map_map]
  rfl

theorem arranged_sublist
    (h : ∀ path ∈ paths, ∃ other ∈ paths', Path.components other = Path.components path) :
    ((arranged paths).map Path.components).Sublist ((arranged paths').map Path.components) := by
  have hleft := List.pairwise_map.2 (pairwise_arranged paths)
  have hright := List.pairwise_map.2 (pairwise_arranged paths')
  refine List.sublist_of_subperm_of_pairwise (List.subperm_of_subset hleft.nodup ?_) hleft hright
  intro steps hsteps
  obtain ⟨path, hpath, rfl⟩ := List.mem_map.1 hsteps
  obtain ⟨other, hother, heq⟩ := h path (mem_of_mem_arranged hpath)
  obtain ⟨kept, hkept, hsame⟩ := exists_mem_arranged hother
  exact List.mem_map.2 ⟨kept, hkept, hsame.trans heq⟩

theorem keptFiles_exclude_sublist (h : exclude ⊆ exclude') (requested : String) (root : RawPath)
    (paths : List RawPath) :
    (keptFiles requested root exclude' paths).Sublist (keptFiles requested root exclude paths) := by
  refine List.Sublist.map _ (List.monotone_filter_right _ fun path hpath => ?_)
  rw [Bool.not_eq_true', Bool.eq_false_iff] at hpath ⊢
  exact mt (isExcluded_mono h) hpath

theorem keptFiles_paths_sublist
    (h : ∀ path ∈ paths, ∃ other ∈ paths', Path.components other = Path.components path) :
    ((keptFiles requested root exclude paths).map DiscoveredFile.identity).Sublist
      ((keptFiles requested root exclude paths').map DiscoveredFile.identity) := by
  rw [identity_keptFiles, identity_keptFiles]
  exact ((arranged_sublist h).filter _).map _

/-! ### Extensions -/

theorem withExtension_congr {ext ext' : String} (h : bareExtension ext' = bareExtension ext)
    (fs : FileSystem) (root : RawPath) : withExtension fs root ext' = withExtension fs root ext := by
  have hpattern : templatePattern root ext' = templatePattern root ext := by
    rw [← String.toList_inj, toList_templatePattern, toList_templatePattern, h]
  rw [withExtension, withExtension, hpattern]

theorem exists_withExtension {ext : String} (h : IsPattern ext) (fs : FileSystem) (place : Place) :
    ∃ paths, withExtension fs place.path ext = .ok paths := by
  obtain ⟨glob, hglob⟩ := exists_compile_of_isPattern place.isAbsolute_path h
  simp only [withExtension, hglob]
  exact ⟨_, rfl⟩

/-- Every extension is among others, points at its front apart. -/
def Covered (extensions extensions' : List String) : Prop :=
  ∀ ext ∈ extensions, ∃ ext' ∈ extensions', bareExtension ext' = bareExtension ext

theorem flatten_subset {found found' : List (List RawPath)} (hcovered : Covered extensions extensions')
    (h : List.Forall₂ (fun ext paths => withExtension fs root ext = .ok paths) extensions found)
    (h' : List.Forall₂ (fun ext paths => withExtension fs root ext = .ok paths) extensions' found') :
    found.flatten ⊆ found'.flatten := by
  intro path hpath
  obtain ⟨ext, hext, paths, hpaths, hmem⟩ := (mem_flatten_iff h).1 hpath
  obtain ⟨ext', hext', hbare⟩ := hcovered ext hext
  exact (mem_flatten_iff h').2 ⟨ext', hext', paths, by rw [withExtension_congr hbare, hpaths], hmem⟩

/-! ### Files for a request -/

theorem exists_filesFor {files : List DiscoveredFile}
    (h : filesFor fs requested exclude extensions = .ok files)
    (hvalid : ∀ ext' ∈ extensions', IsPattern ext' ∨
      ∃ ext ∈ extensions, bareExtension ext = bareExtension ext')
    (exclude' : List String) :
    ∃ files', filesFor fs requested exclude' extensions' = .ok files' := by
  cases request_cases fs requested with
  | fixed _ _ hfiles => exact ⟨_, hfiles exclude' extensions'⟩
  | refused error hfiles => cases (hfiles exclude extensions).symm.trans h
  | directory place _ _ hfiles =>
    rw [hfiles] at h
    obtain ⟨found, hfound, -⟩ := exists_of_map_mapM h
    have heach : ∀ ext' ∈ extensions', ∃ paths, withExtension fs place.path ext' = .ok paths := by
      intro ext' hext'
      rcases hvalid ext' hext' with hpattern | ⟨ext, hext, hbare⟩
      · exact exists_withExtension hpattern fs place
      · rw [← withExtension_congr hbare]
        exact exists_of_forall₂ hfound hext
    obtain ⟨found', hmap, -⟩ := exists_mapM heach
    rw [hfiles, hmap]
    exact ⟨_, rfl⟩

theorem filesFor_exclude_sublist {files files' : List DiscoveredFile} (hexclude : exclude ⊆ exclude')
    (h : filesFor fs requested exclude extensions = .ok files)
    (h' : filesFor fs requested exclude' extensions = .ok files') : files'.Sublist files := by
  cases request_cases fs requested with
  | fixed _ _ hfiles =>
    cases (hfiles exclude extensions).symm.trans h
    cases (hfiles exclude' extensions).symm.trans h'
    exact List.Sublist.refl _
  | refused error hfiles => cases (hfiles exclude extensions).symm.trans h
  | directory place _ _ hfiles =>
    rw [hfiles] at h h'
    cases hfound : extensions.mapM (withExtension fs place.path) with
    | error e =>
      rw [hfound] at h
      cases h
    | ok found =>
      rw [hfound] at h h'
      cases h
      cases h'
      exact keptFiles_exclude_sublist hexclude _ _ _

theorem filesFor_extensions_sublist {files files' : List DiscoveredFile}
    (hcovered : Covered extensions extensions')
    (h : filesFor fs requested exclude extensions = .ok files)
    (h' : filesFor fs requested exclude extensions' = .ok files') :
    (files.map DiscoveredFile.identity).Sublist (files'.map DiscoveredFile.identity) := by
  cases request_cases fs requested with
  | fixed _ _ hfiles =>
    cases (hfiles exclude extensions).symm.trans h
    cases (hfiles exclude extensions').symm.trans h'
    exact List.Sublist.refl _
  | refused error hfiles => cases (hfiles exclude extensions).symm.trans h
  | directory place _ _ hfiles =>
    rw [hfiles] at h h'
    obtain ⟨found, hfound, rfl⟩ := exists_of_map_mapM h
    obtain ⟨found', hfound', rfl⟩ := exists_of_map_mapM h'
    refine keptFiles_paths_sublist fun path hpath => ⟨path, ?_, rfl⟩
    exact flatten_subset hcovered hfound hfound' hpath

/-! ### Spelling -/

/-- The file of an identity, with its path spelled by names. -/
def spelled (identity : List Path.Component × String) : DiscoveredFile :=
  ⟨Place.path (identity.1.tail.map Path.Component.bytes), identity.2⟩

theorem spelled_identity {place : Place} (h : ∀ name ∈ place, ValidName name) (shown : String) :
    spelled (DiscoveredFile.identity ⟨place.path, shown⟩) = ⟨place.path, shown⟩ := by
  rw [DiscoveredFile.identity, Place.components_path h, spelled, List.tail_cons, List.map_map]
  simp [Function.comp_def, Path.Component.bytes]

section Names

variable (wf : fs.WellFormed) {root : Place} (hroot : ∀ name ∈ root, ValidName name)
  (hslash : ∀ ext ∈ extensions, '/' ∉ bareExtension ext) {found : List (List RawPath)}
  (h : List.Forall₂ (fun ext paths => withExtension fs root.path ext = .ok paths) extensions found)
include wf hroot hslash h

/-- Without slashes in the extensions, what a search finds is spelled by names: those of its directory,
as they are read as texts, and those of a way that its walk can take. -/
theorem exists_names_of_mem_found {path : RawPath} (hpath : path ∈ found.flatten) :
    ∃ names, names ≠ [] ∧ (∀ name ∈ root.map reread ++ names, ValidName name) ∧
      fs.isFile path = true ∧ path = Place.path (root.map reread ++ names) := by
  obtain ⟨ext, hext, paths, hpaths, hmem⟩ := (mem_flatten_iff h).1 hpath
  obtain ⟨atoms, -, hiff⟩ := mem_withExtension_iff wf hroot (hslash ext hext) hpaths
  obtain ⟨hfile, -, names, name, -, hleads, -, rfl⟩ := (hiff path).1 hmem
  refine ⟨names ++ [name], by simp, ?_, hfile, rfl⟩
  intro part hpart
  rcases List.mem_append.1 hpart with hpart | hpart
  · obtain ⟨name, hname, rfl⟩ := List.mem_map.1 hpart
    exact (hroot name hname).reread
  · exact wf.validNames_of_leads hleads part hpart

/-- Arranging the paths loses none of them, since each is spelled in one way. -/
theorem mem_arranged_iff (path : RawPath) : path ∈ arranged found.flatten ↔ path ∈ found.flatten := by
  refine ⟨mem_of_mem_arranged, fun hpath => ?_⟩
  obtain ⟨kept, hkept, hsame⟩ := exists_mem_arranged hpath
  obtain ⟨names, -, hvalid, -, rfl⟩ := exists_names_of_mem_found wf hroot hslash h hpath
  obtain ⟨names', -, hvalid', -, rfl⟩ :=
    exists_names_of_mem_found wf hroot hslash h (mem_of_mem_arranged hkept)
  rw [Place.components_path hvalid, Place.components_path hvalid', List.cons.injEq] at hsame
  have hplace := List.map_injective_iff.2 (fun _ _ => Path.Component.name.inj) hsame.2
  rwa [← hplace]

end Names

theorem spelled_filesFor (wf : fs.WellFormed) (hslash : ∀ ext ∈ extensions, '/' ∉ bareExtension ext)
    {files : List DiscoveredFile} (h : filesFor fs requested exclude extensions = .ok files) :
    (files.map DiscoveredFile.identity).map spelled = files := by
  cases request_cases fs requested with
  | fixed place? hplaces hfiles =>
    cases (hfiles exclude extensions).symm.trans h
    cases place? with
    | none => rfl
    | some place =>
      obtain ⟨entry, hentry⟩ := hplaces place rfl
      simp only [Option.toList_some, List.map_singleton, spelled_identity (wf.validNames hentry)]
  | refused error hfiles => cases (hfiles exclude extensions).symm.trans h
  | directory place _ hplace hfiles =>
    rw [hfiles] at h
    obtain ⟨found, hfound, rfl⟩ := exists_of_map_mapM h
    rw [List.map_map]
    refine (List.map_congr_left fun file hfile => ?_).trans (List.map_id _)
    obtain ⟨path, hkept, rfl⟩ := List.mem_map.1 hfile
    have hpath := mem_of_mem_arranged (List.mem_of_mem_filter hkept)
    have hroot := wf.validNames (FileSystem.isDirectoryAt_iff.1 hplace)
    obtain ⟨names, -, hvalid, -, rfl⟩ := exists_names_of_mem_found wf hroot hslash hfound hpath
    exact spelled_identity hvalid _

/-! ### Groups -/

/-- What holds of the groups of each request holds of all groups. -/
theorem discover_of_each (related : List PathGroup → List PathGroup → Prop) (hnil : related [] [])
    (happend : ∀ {a b c d}, related a b → related c d → related (a ++ c) (b ++ d))
    (heach : ∀ requested files, filesFor fs requested exclude extensions = .ok files →
      ∃ files', filesFor fs requested exclude' extensions' = .ok files' ∧
        related (asGroup requested files) (asGroup requested files'))
    {groups : List PathGroup} (h : discover fs requests exclude extensions = .ok groups) :
    ∃ others, discover fs requests exclude' extensions' = .ok others ∧ related groups others := by
  obtain ⟨results, hresults, rfl⟩ := gathered_of_discover h
  clear h
  rw [discover_eq]
  generalize requests.eraseDups = requests at hresults ⊢
  induction hresults with
  | nil => exact ⟨[], rfl, hnil⟩
  | @cons requested result requests results hresult _ ih =>
    obtain ⟨files, hfiles, rfl⟩ := groupFor_eq_ok_iff.1 hresult
    obtain ⟨files', hfiles', hrelated⟩ := heach requested files hfiles
    obtain ⟨others, hothers, hrest⟩ := ih
    have hgroup : groupFor fs exclude' extensions' requested = .ok (asGroup requested files') :=
      groupFor_eq_ok_iff.2 ⟨files', hfiles', rfl⟩
    refine ⟨asGroup requested files' ++ others, ?_, happend hrelated hrest⟩
    rw [List.mapM_cons, hgroup]
    cases hmap : requests.mapM (groupFor fs exclude' extensions') with
    | error e =>
      rw [hmap] at hothers
      cases hothers
    | ok more =>
      rw [hmap] at hothers
      cases hothers
      rfl

theorem arePart_append {α : Type} {key : DiscoveredFile → α} {a b c d : List PathGroup}
    (hab : PathGroup.ArePart key a b) (hcd : PathGroup.ArePart key c d) :
    PathGroup.ArePart key (a ++ c) (b ++ d) := by
  obtain ⟨ab, hab, hb⟩ := List.sublistForall₂_iff.1 hab
  obtain ⟨cd, hcd, hd⟩ := List.sublistForall₂_iff.1 hcd
  exact List.sublistForall₂_iff.2 ⟨ab ++ cd, List.rel_append hab hcd, hb.append hd⟩

theorem arePart_asGroup {α : Type} {key : DiscoveredFile → α} {files files' : List DiscoveredFile}
    (h : (files.map key).Sublist (files'.map key)) :
    PathGroup.ArePart key (asGroup requested files) (asGroup requested files') := by
  cases files with
  | nil => exact .nil
  | cons file files =>
    cases files' with
    | nil => cases h
    | cons file' files' => exact .cons ⟨rfl, h⟩ .nil

theorem identity_asGroup {files files' : List DiscoveredFile}
    (h : files.map DiscoveredFile.identity = files'.map DiscoveredFile.identity) :
    (asGroup requested files).map PathGroup.identity =
      (asGroup requested files').map PathGroup.identity := by
  have hempty : files = [] ↔ files' = [] := by
    rw [← List.map_eq_nil_iff, h, List.map_eq_nil_iff]
  unfold asGroup
  simp only [List.isEmpty_iff, hempty]
  split
  · rfl
  · simp only [List.map_cons, List.map_nil, PathGroup.identity, h]

/-! ### Filters -/

theorem discover_extensions_congr {groups : List PathGroup}
    (h : discover fs requests exclude extensions = .ok groups) (hold : Covered extensions extensions')
    (hnew : Covered extensions' extensions) :
    ∃ others, discover fs requests exclude extensions' = .ok others ∧
      others.map PathGroup.identity = groups.map PathGroup.identity ∧
      (fs.WellFormed → (∀ ext ∈ extensions, '/' ∉ bareExtension ext) → others = groups) := by
  refine discover_of_each (fun a b => b.map PathGroup.identity = a.map PathGroup.identity ∧
    (fs.WellFormed → (∀ ext ∈ extensions, '/' ∉ bareExtension ext) → b = a)) ?_ ?_ ?_ h
  · exact ⟨rfl, fun _ _ => rfl⟩
  · rintro a b c d ⟨hab, hab'⟩ ⟨hcd, hcd'⟩
    refine ⟨by rw [List.map_append, List.map_append, hab, hcd], fun wf hslash => ?_⟩
    rw [hab' wf hslash, hcd' wf hslash]
  · intro requested files hfiles
    obtain ⟨files', hfiles'⟩ := exists_filesFor hfiles (fun ext hext => .inr (hnew ext hext)) exclude
    have hidentity : files'.map DiscoveredFile.identity = files.map DiscoveredFile.identity :=
      (filesFor_extensions_sublist hnew hfiles' hfiles).antisymm
        (filesFor_extensions_sublist hold hfiles hfiles')
    refine ⟨files', hfiles', identity_asGroup hidentity, fun wf hslash => ?_⟩
    have hslash' : ∀ ext ∈ extensions', '/' ∉ bareExtension ext := by
      intro ext hext
      obtain ⟨old, hmem, hbare⟩ := hnew ext hext
      exact hbare ▸ hslash old hmem
    rw [← spelled_filesFor wf hslash' hfiles', hidentity, spelled_filesFor wf hslash hfiles]

theorem discover_exclude_part {groups : List PathGroup}
    (h : discover fs requests exclude extensions = .ok groups) (hmore : exclude ⊆ exclude') :
    ∃ others, discover fs requests exclude' extensions = .ok others ∧
      PathGroup.ArePart id others groups := by
  refine discover_of_each (fun a b => PathGroup.ArePart id b a) .nil arePart_append ?_ h
  intro requested files hfiles
  obtain ⟨files', hfiles'⟩ := exists_filesFor hfiles (fun ext hext => .inr ⟨ext, hext, rfl⟩) exclude'
  refine ⟨files', hfiles', arePart_asGroup ?_⟩
  rw [List.map_id, List.map_id]
  exact filesFor_exclude_sublist hmore hfiles hfiles'

theorem discover_extensions_part {groups : List PathGroup}
    (h : discover fs requests exclude extensions = .ok groups) (hmore : extensions ⊆ extensions')
    (hvalid : ∀ ext ∈ extensions', ext ∉ extensions → IsPattern ext) :
    ∃ others, discover fs requests exclude extensions' = .ok others ∧
      PathGroup.ArePart DiscoveredFile.identity groups others ∧
      (fs.WellFormed → (∀ ext ∈ extensions', '/' ∉ bareExtension ext) →
        PathGroup.ArePart id groups others) := by
  have hnew : ∀ ext ∈ extensions', IsPattern ext ∨
      ∃ old ∈ extensions, bareExtension old = bareExtension ext := by
    intro ext hext
    by_cases hmem : ext ∈ extensions
    · exact .inr ⟨ext, hmem, rfl⟩
    · exact .inl (hvalid ext hext hmem)
  refine discover_of_each (fun a b => PathGroup.ArePart DiscoveredFile.identity a b ∧
    (fs.WellFormed → (∀ ext ∈ extensions', '/' ∉ bareExtension ext) → PathGroup.ArePart id a b))
    ?_ ?_ ?_ h
  · exact ⟨.nil, fun _ _ => .nil⟩
  · rintro a b c d ⟨hab, hab'⟩ ⟨hcd, hcd'⟩
    exact ⟨arePart_append hab hcd, fun wf hslash =>
      arePart_append (hab' wf hslash) (hcd' wf hslash)⟩
  · intro requested files hfiles
    obtain ⟨files', hfiles'⟩ := exists_filesFor hfiles hnew exclude
    have hpart := filesFor_extensions_sublist (fun ext hext => ⟨ext, hmore hext, rfl⟩) hfiles hfiles'
    refine ⟨files', hfiles', arePart_asGroup hpart, fun wf hslash => arePart_asGroup ?_⟩
    -- Both lists are spelled by names, so the files are found again from what identifies them.
    have hslash' : ∀ ext ∈ extensions, '/' ∉ bareExtension ext := fun ext hext =>
      hslash ext (hmore hext)
    rw [List.map_id, List.map_id, ← spelled_filesFor wf hslash' hfiles,
      ← spelled_filesFor wf hslash hfiles']
    exact hpart.map spelled

end Discovery

open Discovery in
/-- **The filters of a search count as sets.** Exclusions and extensions can be given in any order and
more than once, and extensions with points at their fronts. With more exclusions, some of the groups and
of their files are left, in the same order; and with more extensions, the groups and files are still
there, in the same order. A path is known by its steps; if no extension has a slash, the texts are the
same as well. -/
theorem discover_filters {fs : FileSystem} {paths exclude extensions : List String}
    {groups : List PathGroup} (h : discover fs paths exclude extensions = .ok groups) :
    (∀ exclude', (∀ entry, entry ∈ exclude' ↔ entry ∈ exclude) →
      discover fs paths exclude' extensions = .ok groups) ∧
    (∀ extensions',
      (∀ bare, bare ∈ extensions'.map bareExtension ↔ bare ∈ extensions.map bareExtension) →
      ∃ others, discover fs paths exclude extensions' = .ok others ∧
        others.map PathGroup.identity = groups.map PathGroup.identity ∧
        (fs.WellFormed → (∀ ext ∈ extensions, '/' ∉ bareExtension ext) → others = groups)) ∧
    (∀ exclude', exclude ⊆ exclude' →
      ∃ others, discover fs paths exclude' extensions = .ok others ∧
        PathGroup.ArePart id others groups) ∧
    ∀ extensions', extensions ⊆ extensions' →
      (∀ ext ∈ extensions', ext ∉ extensions → IsPattern ext) →
      ∃ others, discover fs paths exclude extensions' = .ok others ∧
        PathGroup.ArePart DiscoveredFile.identity groups others ∧
        (fs.WellFormed → (∀ ext ∈ extensions', '/' ∉ bareExtension ext) →
          PathGroup.ArePart id groups others) := by
  refine ⟨fun exclude' hsame => ?_, fun extensions' hsame => ?_,
    fun exclude' hmore => discover_exclude_part h hmore,
    fun extensions' hmore hvalid => discover_extensions_part h hmore hvalid⟩
  · rw [← h]
    simp only [discover, filesFor, Discovery.scan, isExcluded_congr hsame]
  · refine discover_extensions_congr h (fun ext hext => ?_) fun ext hext => ?_
    · exact List.mem_map.1 ((hsame _).2 (List.mem_map_of_mem hext))
    · exact List.mem_map.1 ((hsame _).1 (List.mem_map_of_mem hext))

open Discovery in
/-- A template in a folder: with one more spelling of the extension, with the folder excluded, and with
one more extension. -/
theorem discover_filters_folder :
    let fs : FileSystem := { entries := [(["d"], .directory), (["d", "b"], .directory),
      (["d", "b", "c.t"], .file "".toUTF8)] }
    let found := [⟨"d", [⟨"/d/b/c.t", "d/b/c.t"⟩]⟩]
    discover fs ["d"] [] ["t"] = .ok found ∧ discover fs ["d"] [] ["..t", "t"] = .ok found ∧
      (∃ others, discover fs ["d"] ["b"] ["t"] = .ok others ∧ PathGroup.ArePart id others found) ∧
      ∃ others, discover fs ["d"] [] ["u", "t"] = .ok others ∧ PathGroup.ArePart id found others := by
  intro fs found
  have wf : fs.WellFormed := by decide
  have hatFile : fs.entry? ["d", "b", "c.t"] = some (.file "".toUTF8) := by rfl
  have hbelow (depth : ℕ) : fs.below (depth + 3) "/d" =
      ([("/d/b", "b"), ("/d/b/c.t", "c.t")] : List (RawPath × RawPath)) := by
    have houter : fs.list? "/d" = some (["b"] : List RawPath) :=
      (wf.list?_path_iff (show fs.entry? ["d"] = some .directory from rfl)
        Entry.directory_ne_link).2 ⟨rfl, by decide, by decide⟩
    have hinner : fs.list? "/d/b" = some (["c.t"] : List RawPath) :=
      (wf.list?_path_iff (show fs.entry? ["d", "b"] = some .directory from rfl)
        Entry.directory_ne_link).2 ⟨rfl, by decide, by decide⟩
    have hnone : fs.list? "/d/b/c.t" = none := by
      rw [Option.eq_none_iff_forall_not_mem]
      intro names hnames
      have hkind := (wf.list?_path_iff hatFile (Entry.file_ne_link _)).1 hnames
      cases hkind.1
    have hfolder : Path.join "/d" "b" = "/d/b" := by decide
    have hfile : Path.join "/d/b" "c.t" = "/d/b/c.t" := by decide
    simp only [FileSystem.below, houter, hinner, hnone, hfolder, hfile, List.flatMap_cons,
      List.flatMap_nil, List.append_nil, Option.getD_some, Option.getD_none]
  have hext : withExtension fs "/d" "t" = .ok (["/d/b/c.t"] : List RawPath) := by
    have hcompile : Pattern.compile (templatePattern "/d" "t") =
      .ok ⟨[.literal "d", .recursive, .wild [.anyRun, .char '.', .char 't']], false⟩ := by cbv
    have hstep : fs.hasStep "/" "d" = true := by cbv
    have hfile : fs.isFile "/d/b/c.t" = true :=
      (wf.isFile_path_iff hatFile (Entry.file_ne_link _)).2 ⟨rfl, by decide⟩
    have haccepts : Pattern.acceptsName [.anyRun, .char '.', .char 't'] "c.t" = true := by cbv
    have hother : Pattern.acceptsName [.anyRun, .char '.', .char 't'] "b" = false := by cbv
    simp only [withExtension, hcompile, FileSystem.matching, FileSystem.expand, if_pos hstep]
    rw [show Path.join "/" "d" = "/d" by decide, show fs.walkBound = 161 + 3 from rfl, hbelow]
    simp [Pattern.Segment.holds, haccepts, hother, hfile]
  have hfiles : filesFor fs "d" [] ["t"] = .ok [⟨"/d/b/c.t", "d/b/c.t"⟩] := by
    have hfile : fs.isFile "d" = false := by cbv
    have hdirectory : fs.isDirectory "d" = true := by cbv
    have hroot : fs.canonical "d" = .ok ("/d" : RawPath) := by cbv
    rw [filesFor, hfile, if_neg Bool.false_ne_true, hdirectory, if_pos rfl, scan_eq _ _ hroot,
      List.mapM_cons, List.mapM_nil, hext]
    show Except.ok (keptFiles "d" "/d" [] (["/d/b/c.t"] : List RawPath)) = _
    rw [keptFiles, keptPaths, arranged, List.mergeSort_singleton, dropRepeats]
    cbv
  have hfound : discover fs ["d"] [] ["t"] = .ok found := by
    rw [discover_single, groupFor, hfiles]
    rfl
  obtain ⟨-, hsame, hexclude, hextensions⟩ := discover_filters hfound
  refine ⟨hfound, ?_, hexclude ["b"] (by simp), ?_⟩
  · obtain ⟨others, hothers, -, heq⟩ := hsame ["..t", "t"] fun bare => by
      simp [show bareExtension "..t" = bareExtension "t" by decide]
    rw [hothers, heq wf (by decide)]
  · have hpattern : ∀ ext ∈ ["u", "t"], ext ∉ ["t"] → IsPattern ext := by
      have hplain : ∀ ext ∈ ["u", "t"], ∀ c ∈ bareExtension ext, c ∉ ['/', '?', '*', '['] := by
        simp [bareExtension]
      exact fun ext hext _ => isPattern_of_plain (hplain ext hext)
    obtain ⟨others, hothers, -, hpart⟩ := hextensions ["u", "t"] (by decide) hpattern
    exact ⟨others, hothers, hpart wf (by decide)⟩

end TemplateLint
