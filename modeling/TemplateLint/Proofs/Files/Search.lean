import TemplateLint.Proofs.Files.Filters

/-!
# What a search finds in a tree

Without links a walk down a directory passes each entry below it once, so the names that a walk has
taken are just the way to an entry whose directories can be listed (`IsTree.leads_iff`), and it cannot be
longer than there are entries: the bound of the walk is never reached. An extension without wildcards is
matched by the names that are texts and end with it. So the files of a request are known without a walk or
a pattern: they are the files below the directory with one of the endings and outside the excluded
folders, as far as they can be looked at (`IsWanted`).
-/

namespace TemplateLint

namespace FileSystem

open Pattern (IsWildcardFree)

/-! ### The names on a way, each with those in front of it -/

section Fronts

variable {α : Type*} {names : List α} {name : α}

theorem forall_fronts_cons_iff {P : List α → α → Prop} :
    (∀ front last, front ++ [last] <+: name :: names → P front last) ↔
      P [] name ∧ ∀ front last, front ++ [last] <+: names → P (name :: front) last := by
  constructor
  · intro h
    refine ⟨h [] name (List.prefix_append [name] names), fun front last hlast => ?_⟩
    apply h (name :: front) last
    rw [List.cons_append, List.cons_prefix_cons]
    exact ⟨rfl, hlast⟩
  · intro h front last hlast
    cases front with
    | nil =>
      rw [List.nil_append, List.cons_prefix_cons] at hlast
      rw [hlast.1]
      exact h.1
    | cons first front =>
      rw [List.cons_append, List.cons_prefix_cons] at hlast
      rw [hlast.1]
      exact h.2 front last hlast.2

theorem forall_fronts_concat_iff {P : List α → Prop} :
    (∀ front last, front ++ [last] <+: names ++ [name] → P front) ↔ ∀ front, front <+: names → P front := by
  constructor
  · intro h front hfront
    obtain ⟨rest, rfl⟩ := hfront
    rw [List.append_assoc] at h
    cases rest with
    | nil => exact h front name List.prefix_rfl
    | cons last rest =>
      apply h front last
      rw [List.prefix_append_right_inj]
      exact List.prefix_append [last] _
  · intro h front last hlast
    rw [List.prefix_concat_iff] at hlast
    rcases hlast with hsame | hlast
    · rw [(List.append_inj' hsame rfl).1]
      exact h names List.prefix_rfl
    · exact h front ((List.prefix_append front [last]).trans hlast)

end Fronts

/-- Files in directories, without links. -/
structure IsTree (fs : FileSystem) : Prop extends fs.WellFormed where
  kinds : ∀ spot ∈ fs.entries, spot.2.isFile = true ∨ spot.2.isDirectory = true

instance (fs : FileSystem) : Decidable fs.IsTree :=
  decidable_of_iff
    (fs.WellFormed ∧ ∀ spot ∈ fs.entries, spot.2.isFile = true ∨ spot.2.isDirectory = true)
    ⟨fun ⟨wf, kinds⟩ => ⟨wf, kinds⟩, fun ⟨wf, kinds⟩ => ⟨wf, kinds⟩⟩

variable {fs : FileSystem} {place : Place} {entry : Entry}

/-! ### The walk -/

theorem WellFormed.length_le (wf : fs.WellFormed) (h : fs.entry? place = some entry) :
    place.length ≤ fs.entries.length := by
  -- The fronts of the way are entries on it, and no two of them have the same length.
  have hnodup : ((List.range place.length).map fun n => place.take (n + 1)).Nodup := by
    refine List.nodup_range.map_on fun m hm n hn heq => ?_
    have hlength := congrArg List.length heq
    rw [List.length_take, List.length_take] at hlength
    rw [List.mem_range] at hm hn
    omega
  have hsubset : ((List.range place.length).map fun n => place.take (n + 1)) ⊆
      fs.entries.map Prod.fst := by
    intro front hfront
    obtain ⟨n, hn, rfl⟩ := List.mem_map.1 hfront
    rw [List.mem_range] at hn
    have hne : place.take (n + 1) ≠ [] := by
      rw [← List.length_pos_iff, List.length_take]
      omega
    rw [← List.take_append_drop (n + 1) place] at h
    obtain ⟨above, habove, -⟩ := wf.exists_entry?_of_append h
    obtain ⟨spot, hspot, heq⟩ := (exists_entry?_iff hne).1 ⟨above, habove⟩
    exact List.mem_map.2 ⟨spot, hspot, heq.symm⟩
  have hle := (List.subperm_of_subset hnodup hsubset).length_le
  rwa [List.length_map, List.length_range, List.length_map] at hle

namespace IsTree

variable (tree : fs.IsTree)
include tree

theorem ne_link (h : fs.entry? place = some entry) (target : RawPath) : entry ≠ .link target := by
  intro hlink
  subst hlink
  by_cases hne : place = []
  · subst hne
    cases h
  · rcases tree.kinds _ (mem_entries_of_some hne h) with hkind | hkind <;> cases hkind

theorem lists_path_iff (h : fs.entry? place = some entry) {name : RawPath} :
    fs.Lists place.path name ↔
      fs.IsListable place ∧ ∃ below, fs.entry? (place ++ [name]) = some below := by
  have hlist (names : List RawPath) : fs.list? place.path = some names ↔
      entry = .directory ∧ fs.IsListable place ∧ names = fs.namesBelow place :=
    tree.list?_path_iff h (tree.ne_link h)
  constructor
  · intro hlists
    obtain ⟨names, hnames, hname⟩ := hlists
    obtain ⟨-, hlistable, rfl⟩ := (hlist names).1 hnames
    exact ⟨hlistable, mem_namesBelow_iff.1 hname⟩
  · intro hbelow
    obtain ⟨hlistable, below, hbelow⟩ := hbelow
    have hdirectory := isDirectoryAt_iff.1 (tree.isDirectoryAt_of_append (by simp) hbelow)
    have hkind : entry = .directory := Option.some.inj (h.symm.trans hdirectory)
    exact ⟨_, (hlist _).2 ⟨hkind, hlistable, rfl⟩, mem_namesBelow_iff.2 ⟨below, hbelow⟩⟩

/-- The walk takes just the ways to entries on which each directory can be listed. -/
theorem leads_iff (h : fs.entry? place = some entry) {names : List RawPath} :
    Leads fs place names ↔ (∃ below, fs.entry? (place ++ names) = some below) ∧
      ∀ front name, front ++ [name] <+: names → fs.IsListable (place ++ front) := by
  induction names generalizing place entry with
  | nil =>
    rw [List.append_nil]
    refine ⟨fun _ => ⟨⟨entry, h⟩, fun front name hprefix => ?_⟩, fun _ => .nil place⟩
    simp at hprefix
  | cons name names ih =>
    have hbehind {next : Entry} (hnext : fs.entry? (place ++ [name]) = some next) :
        Leads fs (place ++ [name]) names ↔ (∃ below, fs.entry? (place ++ name :: names) = some below) ∧
          ∀ front last, front ++ [last] <+: names → fs.IsListable (place ++ name :: front) := by
      rw [ih hnext]
      simp only [List.append_assoc, List.singleton_append]
    rw [leads_cons_iff, tree.lists_path_iff h, forall_fronts_cons_iff, List.append_nil]
    constructor
    · intro hleads
      obtain ⟨⟨hlistable, next, hnext⟩, hleads⟩ := hleads
      obtain ⟨hbelow, hrest⟩ := (hbehind hnext).1 hleads
      exact ⟨hbelow, hlistable, hrest⟩
    · intro hway
      obtain ⟨⟨below, hbelow⟩, hlistable, hrest⟩ := hway
      have hfull := hbelow
      rw [List.append_cons] at hfull
      obtain ⟨next, hnext, -⟩ := tree.exists_entry?_of_append hfull
      exact ⟨⟨hlistable, next, hnext⟩, (hbehind hnext).2 ⟨⟨below, hbelow⟩, hrest⟩⟩

/-- Names that are texts lead from one place to another if those without wildcards are there, and the
others are in lists that can be read. -/
theorem entersAll_iff {names : List RawPath} (hnames : ∀ name ∈ names, Utf8.IsText name)
    (h : fs.entry? (place ++ names) = some entry) (hopen : fs.IsOpen (place ++ names)) :
    fs.EntersAll place (names.map Utf8.lossy) ↔ ∀ front name, front ++ [name] <+: names →
      IsWildcardFree (Utf8.lossy name) ∨ fs.refusal? (place ++ front) = none := by
  induction names generalizing place with
  | nil =>
    refine ⟨fun _ front name hprefix => ?_, fun _ => .nil place⟩
    simp at hprefix
  | cons name names ih =>
    obtain ⟨hname, hrest⟩ := List.forall_mem_cons.1 hnames
    obtain ⟨held, hheld, -⟩ := tree.exists_entry?_of_append h
    have hhere : fs.IsOpen place := hopen.of_append
    rw [List.append_cons] at h hopen
    obtain ⟨next, hnext, -⟩ := tree.exists_entry?_of_append h
    have henters : fs.Enters place (Utf8.lossy name) ↔
        IsWildcardFree (Utf8.lossy name) ∨ fs.refusal? place = none := by
      rw [Enters, hname.encode_lossy]
      split
      · next hplain =>
        rw [tree.isPresent_path_iff hnext (tree.ne_link hnext)]
        exact ⟨fun _ => .inl hplain, fun _ => hopen.of_append⟩
      · next hwild =>
        rw [tree.lists_path_iff hheld]
        constructor
        · intro hlists
          exact .inr hlists.1.readable
        · intro hreadable
          exact ⟨⟨hhere, hreadable.resolve_left hwild⟩, next, hnext⟩
    rw [List.map_cons, entersAll_cons_iff, henters, hname.encode_lossy, ih hrest h hopen,
      forall_fronts_cons_iff, List.append_nil]
    simp only [List.append_assoc, List.singleton_append]

theorem length_lt_walkBound {names : List RawPath} {name : RawPath}
    (h : fs.entry? (place ++ (names ++ [name])) = some entry) : names.length < fs.walkBound := by
  have hle := tree.length_le h
  simp only [List.length_append, List.length_singleton] at hle
  show names.length < 41 * (fs.entries.length + 1)
  omega

end IsTree

end FileSystem

namespace Discovery

open FileSystem Pattern

variable {fs : FileSystem} {root : Place} {exclude extensions : List String}

/-! ### Extensions without wildcards -/

/-- An extension in which each character stands for itself. -/
def IsLiteral (ext : String) : Prop :=
  ∀ c ∈ ext.toList, c ∉ ['/', '*', '?', '[', ']']

theorem not_mem_of_mem_bareExtension {ext : String} (h : IsLiteral ext) {c : Char}
    (hc : c ∈ bareExtension ext) : c ∉ ['/', '*', '?', '[', ']'] :=
  h c ((List.dropWhile_sublist _).subset hc)

theorem slash_not_mem_of_isLiteral {ext : String} (h : IsLiteral ext) : '/' ∉ bareExtension ext :=
  fun hmem => not_mem_of_mem_bareExtension h hmem (by decide)

theorem isPattern_of_isLiteral {ext : String} (h : IsLiteral ext) : IsPattern ext := by
  refine isPattern_of_plain fun c hc hwild => ?_
  have hnot := not_mem_of_mem_bareExtension h hc
  simp_all

theorem accepts_literal {ext : String} (h : IsLiteral ext) {atoms : List Atom}
    (hatoms : atoms? (some '.') (bareExtension ext) = some atoms) (name : List Char) :
    accepts (.anyRun :: .char '.' :: atoms) name = true ↔ '.' :: bareExtension ext <:+ name := by
  have hchars : atoms? (some '.') (bareExtension ext) = some ((bareExtension ext).map .char) := by
    refine atoms?_plain (fun c hc hwild => ?_) _
    have hnot := not_mem_of_mem_bareExtension h hc
    simp_all
  have hquote : .char '.' :: atoms = ('.' :: bareExtension ext).map quote := by
    rw [Option.some.inj (hatoms.symm.trans hchars), List.map_cons]
    congr 1
    refine List.map_congr_left fun c hc => ?_
    have hnot := not_mem_of_mem_bareExtension h hc
    rw [quote, if_neg (by simp_all)]
  rw [hquote, accepts_anyRun]
  simp only [accepts_quote, exists_eq_right]

/-! ### Excluded folders -/

/-- Whether an exclusion names one of the folders, or the way from the searched directory to one. -/
def Excluded (exclude : List String) (folders : List RawPath) : Prop :=
  ∃ entry ∈ exclude, Path.trim entry ≠ "" ∧
    (Path.components (Path.trim entry) <+: folders.map .name ∨ Utf8.encode (Path.trim entry) ∈ folders)

theorem isExcluded_iff (folders : List RawPath) (name : RawPath) :
    isExcluded exclude ((folders ++ [name]).map .name) = true ↔ Excluded exclude folders := by
  have hfolders : ((folders ++ [name]).map Path.Component.name).dropLast = folders.map .name := by
    rw [List.map_append, List.map_singleton, List.dropLast_concat]
  have hempty (entry : String) : Utf8.encode entry ≠ [] ↔ entry ≠ "" :=
    show Utf8.encode entry ≠ Utf8.encode "" ↔ _ from not_congr Utf8.encode_injective.eq_iff
  simp only [isExcluded, hfolders, List.any_eq_true, Excluded, Bool.and_eq_true, Bool.or_eq_true,
    decide_eq_true_eq, hempty, List.isPrefixOf_iff_prefix]
  simp

/-! ### Files -/

/-- A template below a directory that a search is to find: a file with one of the endings and outside the
excluded folders, which can be looked at and whose folders can be listed. The names on the way to the
directory itself are looked up, but for those with wildcards, which are looked for in lists. -/
structure IsWanted (fs : FileSystem) (root : Place) (exclude extensions : List String)
    (folders : List RawPath) (name : RawPath) : Prop where
  isFile : ∃ content, fs.entry? (root ++ (folders ++ [name])) = some (.file content)
  isText : Utf8.IsText name
  hasExtension : ∃ ext ∈ extensions, '.' :: bareExtension ext <:+ (Utf8.lossy name).toList
  notExcluded : ¬ Excluded exclude folders
  isOpen : fs.IsOpen (root ++ (folders ++ [name]))
  listed : ∀ front, front <+: folders → fs.refusal? (root ++ front) = none
  entered : ∀ front part, front ++ [part] <+: root →
    IsWildcardFree (Utf8.lossy part) ∨ fs.refusal? front = none

/-- The file at names below a requested directory. -/
def fileBelow (requested : String) (root : Place) (names : List RawPath) : DiscoveredFile :=
  ⟨root.path ++ Path.slash :: Text.joinWith Path.slash names,
    Path.trimEnd requested ++ "/" ++ "/".intercalate (names.map Utf8.lossy)⟩

theorem stepsBetween_append (front a : List Path.Component) :
    stepsBetween front (front ++ a) = a := by
  induction front with
  | nil =>
    cases a <;> rfl
  | cons step front ih => rw [List.cons_append, stepsBetween, if_pos rfl, ih]

theorem stepsFrom_path {names : List RawPath} (h : ∀ name ∈ root ++ names, ValidName name) :
    stepsFrom root.path (Place.path (root ++ names)) = names.map .name := by
  have hroot : ∀ name ∈ root, ValidName name := fun name hname => h name (List.mem_append_left _ hname)
  rw [stepsFrom, Place.components_path h, Place.components_path hroot, List.map_append,
    ← List.cons_append, stepsBetween_append]

/-- The names from a directory to a path below it. -/
def namesTo (root path : RawPath) : List RawPath :=
  (stepsFrom root path).map Path.Component.bytes

theorem namesTo_path {names : List RawPath} (h : ∀ name ∈ root ++ names, ValidName name) :
    namesTo root.path (Place.path (root ++ names)) = names := by
  rw [namesTo, stepsFrom_path h, List.map_map]
  exact List.map_id names

theorem fileAt_path (hne : root ≠ []) {names : List RawPath} (hnames : names ≠ [])
    (h : ∀ name ∈ root ++ names, ValidName name) (requested : String) :
    fileAt requested root.path (Place.path (root ++ names)) = fileBelow requested root names := by
  rw [fileAt, displayPath, stepsFrom_path h, List.map_map, Place.path_append hne hnames]
  rfl

/-! ### Order -/

theorem lt_of_append_lt {front a b : List Path.Component} (h : front ++ a < front ++ b) : a < b := by
  by_contra hnot
  rcases lt_or_eq_of_le (not_lt.1 hnot) with hlt | rfl
  · exact lt_asymm h (List.append_left_lt hlt)
  · exact lt_irrefl _ h

theorem names_lt_of_steps_lt {a b : List RawPath}
    (h : a.map Path.Component.name < b.map Path.Component.name) : a < b := by
  induction a generalizing b with
  | nil =>
    cases b with
    | nil => exact absurd h (List.not_lt_nil _)
    | cons y b => exact List.nil_lt_cons _ _
  | cons x a ih =>
    cases b with
    | nil => exact absurd h (List.not_lt_nil _)
    | cons y b =>
      rw [List.map_cons, List.map_cons, List.cons_lt_cons_iff] at h
      rw [List.cons_lt_cons_iff]
      rcases h with hlt | ⟨heq, hrest⟩
      · exact .inl ((Path.Component.name_lt_iff x y).1 hlt)
      · exact .inr ⟨Path.Component.name.inj heq, ih hrest⟩

/-! ### The files of a search -/

section Search

variable (tree : fs.IsTree) (hroot : fs.isDirectoryAt root = true) (htext : Utf8.IsText root.path)
  (hliteral : ∀ ext ∈ extensions, IsLiteral ext) {found : List (List RawPath)}
  (h : List.Forall₂ (fun ext paths => withExtension fs root.path ext = .ok paths) extensions found)
include tree

theorem IsWanted.validNames {folders : List RawPath} {name : RawPath}
    (h : IsWanted fs root exclude extensions folders name) :
    ∀ part ∈ root ++ (folders ++ [name]), ValidName part := by
  obtain ⟨content, hentry⟩ := h.isFile
  exact tree.validNames hentry

include hroot htext

/-- The files for an extension are those below the directory that end with it. -/
theorem mem_withExtension_literal {ext : String} (hext : IsLiteral ext) {paths : List RawPath}
    (h : withExtension fs root.path ext = .ok paths) (path : RawPath) :
    path ∈ paths ↔ ∃ folders name, IsWanted fs root [] [ext] folders name ∧
      path = Place.path (root ++ (folders ++ [name])) := by
  have hdirectory := isDirectoryAt_iff.1 hroot
  have hnames : ∀ name ∈ root, Utf8.IsText name := Place.isText_path_iff.1 htext
  have henter (hopen : fs.IsOpen root) : fs.EntersAll [] (root.map Utf8.lossy) ↔
      ∀ front name, front ++ [name] <+: root →
        IsWildcardFree (Utf8.lossy name) ∨ fs.refusal? ([] ++ front) = none :=
    tree.entersAll_iff hnames hdirectory hopen
  obtain ⟨atoms, hatoms, hmem⟩ := mem_withExtension_iff tree.toWellFormed (tree.validNames hdirectory)
    (slash_not_mem_of_isLiteral hext) h
  rw [hmem, map_reread_of_isText hnames]
  constructor
  · intro hpath
    obtain ⟨hfile, henters, folders, name, -, hleads, haccepts, rfl⟩ := hpath
    obtain ⟨⟨entry, hentry⟩, hlistable⟩ := (tree.leads_iff hdirectory).1 hleads
    obtain ⟨hkind, hopen⟩ := (tree.isFile_path_iff hentry (tree.ne_link hentry)).1 hfile
    obtain ⟨text, rfl, hends⟩ := acceptsName_iff.1 haccepts
    refine ⟨folders, Utf8.encode text, ⟨?_, Utf8.isText_encode text, ⟨ext, by simp, ?_⟩, ?_, hopen, ?_, ?_⟩,
      rfl⟩
    · cases entry with
      | file content => exact ⟨content, hentry⟩
      | directory => cases hkind
      | link target => cases hkind
      | special content => cases hkind
    · rw [Utf8.lossy_encode]
      exact (accepts_literal hext hatoms _).1 hends
    · simp [Excluded]
    · intro front hfront
      exact (forall_fronts_concat_iff.1 hlistable front hfront).readable
    · exact (henter hopen.of_append).1 henters
  · intro hpath
    obtain ⟨folders, name, hwanted, rfl⟩ := hpath
    obtain ⟨content, hentry⟩ := hwanted.isFile
    obtain ⟨_, hmem, hends⟩ := hwanted.hasExtension
    rw [List.mem_singleton.1 hmem] at hends
    refine ⟨?_, ?_, folders, name, tree.length_lt_walkBound hentry, ?_, ?_, rfl⟩
    · exact (tree.isFile_path_iff hentry (tree.ne_link hentry)).2 ⟨rfl, hwanted.isOpen⟩
    · exact (henter hwanted.isOpen.of_append).2 hwanted.entered
    · refine (tree.leads_iff hdirectory).2 ⟨⟨_, hentry⟩, forall_fronts_concat_iff.2 fun front hfront => ?_⟩
      have hreadable := hwanted.listed front hfront
      have hopen := hwanted.isOpen
      obtain ⟨rest, rfl⟩ := hfront
      rw [List.append_assoc, ← List.append_assoc] at hopen
      exact ⟨hopen.of_append, hreadable⟩
    · exact acceptsName_iff.2 ⟨_, hwanted.isText.encode_lossy.symm, (accepts_literal hext hatoms _).2 hends⟩

include hliteral h

theorem mem_found_iff (path : RawPath) :
    path ∈ found.flatten ↔ ∃ folders name,
      IsWanted fs root [] extensions folders name ∧ path = Place.path (root ++ (folders ++ [name])) := by
  rw [mem_flatten_iff h]
  constructor
  · intro hpath
    obtain ⟨ext, hext, paths, hpaths, hmem⟩ := hpath
    obtain ⟨folders, name, hwanted, rfl⟩ :=
      (mem_withExtension_literal tree hroot htext (hliteral ext hext) hpaths path).1 hmem
    obtain ⟨other, hother, hends⟩ := hwanted.hasExtension
    rw [List.mem_singleton.1 hother] at hends
    exact ⟨folders, name, { hwanted with hasExtension := ⟨ext, hext, hends⟩ }, rfl⟩
  · intro hpath
    obtain ⟨folders, name, hwanted, rfl⟩ := hpath
    obtain ⟨ext, hext, hends⟩ := hwanted.hasExtension
    obtain ⟨paths, hpaths⟩ := exists_of_forall₂ h hext
    refine ⟨ext, hext, paths, hpaths, ?_⟩
    refine (mem_withExtension_literal tree hroot htext (hliteral ext hext) hpaths _).2 ⟨folders, name, ?_, rfl⟩
    exact { hwanted with hasExtension := ⟨ext, List.mem_singleton.2 rfl, hends⟩ }

theorem mem_keptPaths_iff (exclude : List String) (path : RawPath) :
    path ∈ keptPaths root.path exclude found.flatten ↔ ∃ folders name,
      IsWanted fs root exclude extensions folders name ∧
        path = Place.path (root ++ (folders ++ [name])) := by
  have hslash : ∀ ext ∈ extensions, '/' ∉ bareExtension ext := fun ext hext =>
    slash_not_mem_of_isLiteral (hliteral ext hext)
  rw [keptPaths, List.mem_filter,
    mem_arranged_iff tree.toWellFormed (tree.validNames (isDirectoryAt_iff.1 hroot)) hslash h,
    mem_found_iff tree hroot htext hliteral h]
  constructor
  · intro hpath
    obtain ⟨⟨folders, name, hwanted, rfl⟩, hkept⟩ := hpath
    rw [stepsFrom_path (hwanted.validNames tree), Bool.not_eq_true', Bool.eq_false_iff, Ne,
      isExcluded_iff] at hkept
    exact ⟨folders, name, { hwanted with notExcluded := hkept }, rfl⟩
  · intro hpath
    obtain ⟨folders, name, hwanted, rfl⟩ := hpath
    refine ⟨⟨folders, name, { hwanted with notExcluded := by simp [Excluded] }, rfl⟩, ?_⟩
    rw [stepsFrom_path (hwanted.validNames tree), Bool.not_eq_true', Bool.eq_false_iff, Ne,
      isExcluded_iff]
    exact hwanted.notExcluded

/-- The files that are kept are given by the names that lead to them, in the order of their bytes. -/
theorem exists_keptFiles (hne : root ≠ []) (requested : String) (exclude : List String) :
    ∃ ways : List (List RawPath), ways.Pairwise (· < ·) ∧
      (∀ way, way ∈ ways ↔ ∃ folders name, way = folders ++ [name] ∧
        IsWanted fs root exclude extensions folders name) ∧
      keptFiles requested root.path exclude found.flatten = ways.map (fileBelow requested root) := by
  have hkept := mem_keptPaths_iff tree hroot htext hliteral h exclude
  have hsplit (names : List RawPath) : Path.Component.root :: (root ++ names).map .name =
      (.root :: root.map .name) ++ names.map .name := by
    rw [List.map_append, List.cons_append]
  refine ⟨(keptPaths root.path exclude found.flatten).map (namesTo root.path), ?_, fun way => ?_, ?_⟩
  · refine List.pairwise_map.2 (((pairwise_arranged _).sublist List.filter_sublist).imp_of_mem ?_)
    intro a b ha hb hlt
    obtain ⟨folders, name, hwanted, rfl⟩ := (hkept a).1 ha
    obtain ⟨folders', name', hwanted', rfl⟩ := (hkept b).1 hb
    rw [namesTo_path (hwanted.validNames tree), namesTo_path (hwanted'.validNames tree)]
    rw [Place.components_path (hwanted.validNames tree),
      Place.components_path (hwanted'.validNames tree), hsplit, hsplit] at hlt
    exact names_lt_of_steps_lt (lt_of_append_lt hlt)
  · rw [List.mem_map]
    constructor
    · intro hway
      obtain ⟨path, hpath, rfl⟩ := hway
      obtain ⟨folders, name, hwanted, rfl⟩ := (hkept path).1 hpath
      exact ⟨folders, name, namesTo_path (hwanted.validNames tree), hwanted⟩
    · intro hway
      obtain ⟨folders, name, rfl, hwanted⟩ := hway
      exact ⟨_, (hkept _).2 ⟨folders, name, hwanted, rfl⟩, namesTo_path (hwanted.validNames tree)⟩
  · rw [keptFiles, List.map_map]
    refine List.map_congr_left fun path hpath => ?_
    obtain ⟨folders, name, hwanted, rfl⟩ := (hkept path).1 hpath
    rw [fileAt_path hne (by simp) (hwanted.validNames tree), Function.comp_apply,
      namesTo_path (hwanted.validNames tree)]

end Search

/-! ### One request -/

/-- A request for which an absolute path is found is searched. -/
theorem exists_filesFor_of_realPlace {requested : String}
    (hreal : fs.isFile requested = true ∨ fs.isDirectory requested = true →
      ∃ place, fs.realPlace requested = .ok place)
    (hliteral : ∀ ext ∈ extensions, IsLiteral ext) (exclude : List String) :
    ∃ files, filesFor fs requested exclude extensions = .ok files := by
  by_cases hfile : fs.isFile requested = true
  · obtain ⟨place, hplace⟩ := hreal (.inl hfile)
    obtain ⟨spot, content, hspot, hat⟩ := exists_file_of_isFile hfile
    obtain rfl := eq_of_realPlace hplace hspot
    exact ⟨_, filesFor_file fs hspot hat hplace exclude extensions⟩
  by_cases hdirectory : fs.isDirectory requested = true
  · obtain ⟨place, hplace⟩ := hreal (.inr hdirectory)
    obtain ⟨spot, hspot, hat⟩ := exists_resolve_of_target hdirectory
    obtain rfl := eq_of_realPlace hplace hspot
    obtain ⟨found, hmap, -⟩ := exists_mapM fun ext hext =>
      exists_withExtension (isPattern_of_isLiteral (hliteral ext hext)) fs place
    rw [filesFor_directory fs hspot hat hplace, hmap]
    exact ⟨_, rfl⟩
  · rw [filesFor, if_neg hfile, if_neg hdirectory]
    exact ⟨[], rfl⟩

/-- What a search of a directory in a tree finds. -/
theorem exists_ways (tree : fs.IsTree) {requested : String} (hdirectory : fs.isDirectory requested = true)
    (hreal : fs.realPlace requested = .ok root) (htext : Utf8.IsText root.path) (hne : root ≠ [])
    (exclude : List String) (hliteral : ∀ ext ∈ extensions, IsLiteral ext) :
    ∃ ways : List (List RawPath), ways.Pairwise (· < ·) ∧
      (∀ way, way ∈ ways ↔ ∃ folders name, way = folders ++ [name] ∧
        IsWanted fs root exclude extensions folders name) ∧
      filesFor fs requested exclude extensions = .ok (ways.map (fileBelow requested root)) := by
  obtain ⟨place, hplace, hat⟩ := exists_resolve_of_target hdirectory
  obtain rfl := eq_of_realPlace hreal hplace
  obtain ⟨found, hmap, hfound⟩ := exists_mapM fun ext hext =>
    exists_withExtension (isPattern_of_isLiteral (hliteral ext hext)) fs root
  obtain ⟨ways, hsorted, hways, hkept⟩ :=
    exists_keptFiles tree hat htext hliteral hfound hne requested exclude
  refine ⟨ways, hsorted, hways, ?_⟩
  rw [filesFor_directory fs hplace hat hreal, hmap, ← hkept]
  rfl

end Discovery

open Discovery in
/-- **A search finds the right files.** In a tree without links, for extensions without slashes and
wildcards, the group of a requested directory whose absolute path is a text has just the files at any
depth below it whose name is a text and ends with a point and an extension, and that are not in an
excluded folder, as far as their paths can be followed and the names in their folders can be read. They
come in the order of their names as bytes, each with its path below the canonical directory and below the
request as it was written; and without such files there is no group. -/
theorem discover_directory {fs : FileSystem} (tree : fs.IsTree) {requested : String} {root : Place}
    (hdirectory : fs.isDirectory requested = true) (hroot : fs.realPlace requested = .ok root)
    (htext : Utf8.IsText root.path) (hne : root ≠ []) {paths : List String} (hmem : requested ∈ paths)
    (hreal : ∀ other ∈ paths, fs.isFile other = true ∨ fs.isDirectory other = true →
      ∃ place, fs.realPlace other = .ok place)
    (exclude : List String) {extensions : List String} (hliteral : ∀ ext ∈ extensions, IsLiteral ext) :
    ∃ (groups : List PathGroup) (ways : List (List RawPath)),
      discover fs paths exclude extensions = .ok groups ∧ ways.Pairwise (· < ·) ∧
      (∀ way, way ∈ ways ↔ ∃ folders name, way = folders ++ [name] ∧
        IsWanted fs root exclude extensions folders name) ∧
      ∀ files, ⟨requested, files⟩ ∈ groups ↔
        files ≠ [] ∧ files = ways.map (fileBelow requested root) := by
  obtain ⟨groups, hgroups⟩ := exists_discover fun other (hother : other ∈ paths) => by
    obtain ⟨files, hfiles⟩ := exists_filesFor_of_realPlace (hreal other hother) hliteral exclude
    exact ⟨_, groupFor_eq_ok_iff.2 ⟨files, hfiles, rfl⟩⟩
  obtain ⟨results, hresults, rfl⟩ := gathered_of_discover hgroups
  obtain ⟨ways, hsorted, hways, hfiles⟩ :=
    exists_ways tree hdirectory hroot htext hne exclude hliteral
  refine ⟨results.flatten, ways, hgroups, hsorted, hways, fun files => ?_⟩
  rw [hresults.mem_iff, hfiles, Except.ok.injEq, List.mem_eraseDups, eq_comm]
  exact ⟨And.right, fun hfiles => ⟨hmem, hfiles⟩⟩

open Discovery in
/-- A directory whose name has a wildcard in it, with a template that has two of the extensions, one in an
excluded folder, one in a folder that cannot be listed, and one whose name is no text. -/
theorem discover_directory_wild_name :
    let fs : FileSystem := {
      entries := [(["a*"], .directory), (["a*", "b"], .directory),
        (["a*", "b", "c.h.t"], .file "".toUTF8), (["a*", "d"], .directory),
        (["a*", "d", "e.t"], .file "".toUTF8), (["a*", "f"], .directory),
        (["a*", "f", "g.t"], .file "".toUTF8), (["a*", [0xE9, 0x2E, 0x74]], .file "".toUTF8)]
      refusals := [(["a*", "f"], .denied)] }
    fs.IsTree ∧ fs.realPlace "a*/" = .ok ["a*"] ∧
      ∃ groups, discover fs ["a*/"] ["/d/"] ["t", ".h.t"] = .ok groups ∧
        ⟨"a*/", [⟨"/a*/b/c.h.t", "a*/b/c.h.t"⟩]⟩ ∈ groups := by
  intro fs
  have tree : fs.IsTree := by decide
  have hdirectory : fs.isDirectory "a*/" = true := by cbv
  have hroot : fs.realPlace "a*/" = .ok ["a*"] := by cbv
  have htext : Utf8.IsText (Place.path ["a*"]) := ⟨"/a*", by decide⟩
  have hliteral : ∀ ext ∈ ["t", ".h.t"], IsLiteral ext := by simp [IsLiteral]
  obtain ⟨groups, ways, hgroups, hsorted, hways, hfiles⟩ :=
    discover_directory tree hdirectory hroot htext (by simp) (List.mem_singleton.2 rfl)
      (fun other hother _ => by rw [List.mem_singleton.1 hother]; exact ⟨_, hroot⟩) ["/d/"] hliteral
  refine ⟨tree, hroot, groups, hgroups, ?_⟩
  have hkept : ¬ Excluded ["/d/"] (["b"] : List RawPath) := by
    rw [← isExcluded_iff ["b"] "c.h.t"]
    decide
  have hleft : Excluded ["/d/"] (["d"] : List RawPath) := by
    rw [← isExcluded_iff ["d"] "e.t"]
    decide
  have hmem : (["b", "c.h.t"] : List RawPath) ∈ ways := by
    refine (hways _).2 ⟨["b"], "c.h.t", rfl, ⟨_, rfl⟩, Utf8.isText_encode "c.h.t", ?_, hkept, by decide,
      ?_, ?_⟩
    · rw [Utf8.lossy_encode]
      exact ⟨"t", by decide, by decide⟩
    · intro front hfront
      rcases List.prefix_concat_iff.1 (show front <+: [] ++ [("b" : RawPath)] from hfront) with rfl | hnil
      · rfl
      · rw [List.prefix_nil.1 hnil]
        rfl
    · intro front part hpart
      refine .inr ?_
      rcases List.prefix_concat_iff.1 (show front ++ [part] <+: [] ++ [("a*" : RawPath)] from hpart) with
        hsame | hnil
      · rw [(List.append_inj' hsame rfl).1]
        rfl
      · simp at hnil
  have hall : ∀ way ∈ ways, way = (["b", "c.h.t"] : List RawPath) := by
    intro way hway
    obtain ⟨folders, name, rfl, ⟨content, hentry⟩, htext, -, hnot, -, hlisted, -⟩ := (hways way).1 hway
    have hspot := FileSystem.mem_entries_of_some (by simp) hentry
    simp only [fs, List.mem_cons, Prod.mk.injEq, reduceCtorEq, and_false, false_or,
      List.not_mem_nil, or_false] at hspot
    rcases hspot with ⟨hplace, -⟩ | ⟨hplace, -⟩ | ⟨hplace, -⟩ | ⟨hplace, -⟩
    · exact List.append_cancel_left hplace
    · have hway : folders ++ [name] = ["d"] ++ ["e.t"] := List.append_cancel_left hplace
      rw [(List.append_inj' hway rfl).1] at hnot
      exact absurd hleft hnot
    · have hway : folders ++ [name] = ["f"] ++ ["g.t"] := List.append_cancel_left hplace
      have hrefused := hlisted folders List.prefix_rfl
      rw [(List.append_inj' hway rfl).1] at hrefused
      cases hrefused
    · have hway : folders ++ [name] = [] ++ [[0xE9, 0x2E, 0x74]] := List.append_cancel_left hplace
      rw [List.singleton_inj.1 (List.append_inj' hway rfl).2] at htext
      exact absurd htext (by decide +kernel)
  -- No way stands twice in a list that increases strictly.
  have hsingle : ways = [(["b", "c.h.t"] : List RawPath)] := by
    obtain _ | ⟨first, _ | ⟨second, rest⟩⟩ := ways
    · cases hmem
    · rw [hall first (by simp)]
    · have hlt := (List.pairwise_cons.1 hsorted).1 second (by simp)
      rw [hall first (by simp), hall second (by simp)] at hlt
      exact absurd hlt (by decide)
  refine (hfiles _).2 ⟨by simp, ?_⟩
  rw [hsingle]
  cbv

/-! ### What is passed over -/

namespace Discovery

/-- A search for an extension passes over a file with it that stands below a requested directory. -/
structure PassesOver (fs : FileSystem) (requested : String) (root folders : Place) (name : RawPath)
    (ext : String) : Prop where
  tree : fs.IsTree
  isDirectory : fs.isDirectory requested = true
  canonical : fs.canonical requested = .ok root.path
  isFile : (fs.entry? (root ++ (folders ++ [name]))).any Entry.isFile = true
  hasExtension : Utf8.encode ("." ++ ext) <:+ name
  nothing : discover fs [requested] [] [ext] = .ok []

/-- A file behind so many folders with long names that its path is too long. -/
def deepTree : FileSystem :=
  let folder : RawPath := List.replicate 250 0x61
  let below (names : Place) : Place := "d" :: names
  { entries := (below [], Entry.directory) ::
      ((List.range 17).map (fun n => (below (List.replicate (n + 1) folder), Entry.directory)) ++
        [(below (List.replicate 17 folder ++ (["a.t"] : Place)), Entry.file "".toUTF8)]) }

theorem isTree_deepTree : deepTree.IsTree := by decide +kernel

theorem not_isWanted_deepTree (folders : List RawPath) (name : RawPath) :
    ¬ IsWanted deepTree ["d"] [] ["t"] folders name := by
  intro hwanted
  obtain ⟨content, hentry⟩ := hwanted.isFile
  have hshort := hwanted.isOpen.short
  have hspot := FileSystem.mem_entries_of_some (by simp) hentry
  rcases List.mem_cons.1 hspot with hspot | hspot
  · cases congrArg Prod.snd hspot
  rcases List.mem_append.1 hspot with hspot | hspot
  · obtain ⟨n, -, heq⟩ := List.mem_map.1 hspot
    cases congrArg Prod.snd heq
  · have hplace : (["d"] : Place) ++ (folders ++ [name]) = _ := congrArg Prod.fst (List.mem_singleton.1 hspot)
    rw [hplace] at hshort
    exact absurd hshort (by decide +kernel)

theorem passesOver_deepTree :
    PassesOver deepTree "d" ["d"] (List.replicate 17 (List.replicate 250 0x61)) "a.t" "t" := by
  have tree := isTree_deepTree
  have hentry : deepTree.entry? ([] ++ (["d"] : Place)) = some .directory := rfl
  have hreaches (manner : FileSystem.Manner) (hfree : deepTree.barrier? manner [] "d" = none) :
      FileSystem.Reaches deepTree manner [] ["d"] 0 ["d"] :=
    .step hfree (.entry (by decide) hentry Entry.directory_ne_link) (.done _)
  have hdirectory : deepTree.isDirectory "d" = true := by
    have hleads : FileSystem.LeadsTo deepTree "d" 0 ["d"] := ⟨by decide, hreaches .stepwise (by decide)⟩
    exact isDirectory_of_resolve _ (hleads.resolve_eq_ok (by decide) (by decide)) rfl
  have hreal : deepTree.realPlace "d" = .ok ["d"] :=
    (hreaches .absolute (by decide)).follow_eq FileSystem.maxLinks
  refine ⟨tree, hdirectory, ?_, by decide +kernel, by decide, ?_⟩
  · rw [FileSystem.canonical, hreal]
    rfl
  · have hliteral : ∀ ext ∈ ["t"], IsLiteral ext := by simp [IsLiteral]
    obtain ⟨ways, -, hways, hfiles⟩ :=
      exists_ways tree hdirectory hreal ⟨"/d", by decide⟩ (by simp) [] hliteral
    have hnone : ways = [] := by
      rw [List.eq_nil_iff_forall_not_mem]
      intro way hway
      obtain ⟨folders, name, -, hwanted⟩ := (hways way).1 hway
      exact not_isWanted_deepTree folders name hwanted
    rw [discover_single, groupFor, hfiles, hnone]
    rfl

end Discovery

open Discovery in
/-- A search passes over a file whose name is no text, a file below a directory whose absolute path is no
text, a file in a folder that cannot be listed or that is closed, and a file whose path is too long. -/
theorem discover_directory_passes_over :
    let bytes : RawPath := [0xE9, 0x2E, 0x74]
    let folder : List (Place × Entry) := [(["d"], .directory), (["d", "b"], .directory),
      (["d", "b", "a.t"], .file "".toUTF8)]
    PassesOver { entries := [(["d"], .directory), (["d", bytes], .file "".toUTF8)] } "d" ["d"] [] bytes "t" ∧
      PassesOver ⟨[([[0xE9]], .directory), ([[0xE9], "a.t"], .file "".toUTF8)], [[0xE9]], [], []⟩
        "." [[0xE9]] [] "a.t" "t" ∧
      PassesOver { entries := folder, refusals := [(["d", "b"], .denied)] } "d" ["d"] ["b"] "a.t" "t" ∧
      PassesOver { entries := folder, closed := [["d", "b"]] } "d" ["d"] ["b"] "a.t" "t" ∧
      ∃ folders, PassesOver deepTree "d" ["d"] folders "a.t" "t" := by
  intro bytes folder
  refine ⟨?_, ?_, ?_, ?_, _, passesOver_deepTree⟩
  · exact ⟨by decide, by cbv, by cbv, by decide, by decide, by cbv⟩
  · exact ⟨by decide, by cbv, by cbv, by decide, by decide, by cbv⟩
  · exact ⟨by decide, by cbv, by cbv, by decide, by decide, by cbv⟩
  · exact ⟨by decide, by cbv, by cbv, by decide, by decide, by cbv⟩

end TemplateLint
