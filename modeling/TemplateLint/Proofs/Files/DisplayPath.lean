import TemplateLint.Proofs.Files.Search
import TemplateLint.Proofs.Files.Spelling

/-!
# Where display paths lead

The display path of a file is a text made of the request as it was written, without slashes at its end,
and the names from the requested directory to the file. So its steps are those of the request with the
names behind them. The real path has the same names behind the way to the directory, on which there are
no links. Both paths come to the directory and go on along the names: they lead to the same file, and the
display path runs through as many links more as the request does.

That is why a file can have a real path that can be followed and a display path that cannot: the links of
both parts together may be too many. Going round a link to its own directory shows it: a search finds the
file beside the link behind each number of links that a path may run through. The display path may also be
too long, as it keeps the spelling of the request. And a name that is no text is shown as another name.
-/

namespace TemplateLint

namespace Path

/-! ### The bytes of a display path -/

/-- What is trimmed from the end of a path are slashes. -/
theorem exists_slashes (path : String) :
    ∃ n, Utf8.encode path = Utf8.encode (trimEnd path) ++ List.replicate n slash := by
  have hslashes : path.toList.reverse.takeWhile (· == '/') =
      List.replicate (path.toList.reverse.takeWhile (· == '/')).length '/' :=
    List.eq_replicate_iff.2 ⟨rfl, fun c hc => by simpa using List.mem_takeWhile_imp hc⟩
  generalize (path.toList.reverse.takeWhile (· == '/')).length = n at hslashes
  have hsplit : path = trimEnd path ++ String.ofList (List.replicate n '/') := by
    rw [← String.toList_inj, String.toList_append, String.toList_ofList, ← List.reverse_replicate,
      ← hslashes, trimEnd, String.toList_ofList, Text.trimEnd, ← List.reverse_append,
      List.takeWhile_append_dropWhile, List.reverse_reverse]
  have hbytes : Utf8.encode (String.ofList (List.replicate n '/')) = List.replicate n slash := by
    rw [Utf8.encode, String.toList_ofList, List.flatMap_replicate]
    exact List.flatten_replicate_singleton
  refine ⟨n, ?_⟩
  rw [← hbytes, ← Utf8.encode_append, ← hsplit]

theorem parts_trimEnd (path : String) : parts (Utf8.encode (trimEnd path)) = parts path := by
  obtain ⟨n, hpath⟩ := exists_slashes path
  rw [hpath, parts_append_slashes]

theorem isAbsolute_trimEnd_append {path : String} (hne : Utf8.encode path ≠ []) (place : Place) :
    isAbsolute (Utf8.encode (trimEnd path) ++ place.path) = isAbsolute path := by
  obtain ⟨n, hpath⟩ := exists_slashes path
  rw [hpath] at hne
  rw [hpath, isAbsolute, isAbsolute]
  cases htrim : Utf8.encode (trimEnd path) with
  | nil =>
    -- A path of slashes alone is absolute, and so is what is put in its place.
    cases n with
    | zero =>
      rw [htrim] at hne
      exact absurd rfl hne
    | succ n => rfl
  | cons b rest => rfl

theorem encode_intercalate (texts : List String) :
    Utf8.encode ("/".intercalate texts) = Text.joinWith slash (texts.map Utf8.encode) := by
  induction texts with
  | nil => rfl
  | cons text texts ih =>
    cases texts with
    | nil => simp [Text.joinWith]
    | cons next texts =>
      rw [String.intercalate_cons_cons, Utf8.encode_append, Utf8.encode_append, ih, List.append_assoc]
      rfl

end Path

namespace FileSystem

variable {fs : FileSystem} {requested : String} {root there : Place} {names : List RawPath}
  {before within : Nat}

/-! ### What a display path leads to -/

theorem steps_append_path (hne : names ≠ []) (hvalid : ∀ name ∈ names, ValidName name)
    (front : RawPath) : steps (front ++ Place.path names) = Path.parts front ++ names := by
  have hlast : (front ++ Place.path names).getLast? ≠ some Path.slash := by
    rw [List.getLast?_append_of_ne_nil _ (Place.path_ne_nil names)]
    exact Place.getLast?_path hne hvalid
  have hparts (front : RawPath) : Path.parts (front ++ Place.path names) =
      Path.parts front ++ Path.parts (Text.joinWith Path.slash names) := by
    rw [Place.path, Path.parts_append]
  have hnames : Path.parts (Text.joinWith Path.slash names) = names := by
    have hpath := hparts []
    rw [List.nil_append, Place.parts_path hvalid] at hpath
    exact hpath.symm
  rw [steps, if_neg hlast, List.append_nil, hparts, hnames]

/-- Names behind a path lead on from where the path leads. -/
theorem LeadsTo.append_names (h : LeadsTo fs requested before root) (hne : names ≠ [])
    (hvalid : ∀ name ∈ names, ValidName name)
    (honward : Reaches fs .stepwise root names within there) :
    LeadsTo fs (Utf8.encode (Path.trimEnd requested) ++ Place.path names) (before + within) there := by
  have horigin : origin (Utf8.encode (Path.trimEnd requested) ++ Place.path names) fs.workingDirectory =
      origin requested fs.workingDirectory := by
    rw [origin, origin, Path.isAbsolute_trimEnd_append h.ne_nil]
  refine ⟨fun hempty => Place.path_ne_nil names (List.append_eq_nil_iff.1 hempty).2, ?_⟩
  rw [horigin, steps_append_path hne hvalid, Path.parts_trimEnd]
  exact h.reaches.parts.append honward

end FileSystem

namespace Discovery

open FileSystem

variable {fs : FileSystem} {requested : String} {root : Place} {exclude extensions : List String}
  {files : List DiscoveredFile} {file : DiscoveredFile}

/-- Both paths of a file lead to it: the real path runs through some links, and the display path through
as many links more as there are on the way to what was requested. -/
structure Located (fs : FileSystem) (requested : String) (file : DiscoveredFile) (place : Place)
    (before within : Nat) : Prop where
  request : ∃ root, LeadsTo fs requested before root
  realPath : LeadsTo fs file.realPath within place
  displayPath : LeadsTo fs file.displayPath (before + within) place

/-- The real path of a file leads to it. -/
structure IsReal (fs : FileSystem) (file : DiscoveredFile) (place : Place) : Prop where
  isAbsolute : Path.isAbsolute file.realPath = true
  isFile : ∃ content, fs.entry? place = some (.file content)
  resolves : fs.resolve file.realPath = .ok place

/-- Every name on the way to a file is a text: those of the directory that was searched for it, and those
behind it. -/
def IsSpelled (fs : FileSystem) (requested : String) (file : DiscoveredFile) : Prop :=
  fs.isDirectory requested = true → Utf8.IsText file.realPath ∧
    ∀ root, fs.canonical requested = .ok root → Utf8.IsText root

theorem encode_displayPath {names : List RawPath} (hvalid : ∀ name ∈ root ++ names, ValidName name)
    (htext : ∀ name ∈ names, Utf8.IsText name) :
    Utf8.encode (fileAt requested root.path (Place.path (root ++ names))).displayPath =
      Utf8.encode (Path.trimEnd requested) ++ Place.path names := by
  have hnames : (names.map Utf8.lossy).map Utf8.encode = names := by
    rw [List.map_map]
    exact map_reread_of_isText htext
  have hsteps : ((names.map Path.Component.name).map fun step => Utf8.lossy step.bytes) =
      names.map Utf8.lossy := by
    rw [List.map_map]
    rfl
  have hslash : Utf8.encode "/" = [Path.slash] := rfl
  rw [fileAt, displayPath, stepsFrom_path hvalid, hsteps, Utf8.encode_append, Utf8.encode_append,
    Path.encode_intercalate, hnames, hslash, List.append_assoc, List.singleton_append, Place.path]

theorem located_of_file (wf : fs.WellFormed) {place : Place} {content : ByteArray}
    (hplace : fs.resolve requested = .ok place) (hat : fs.entry? place = some (.file content))
    (hreal : fs.realPlace requested = .ok place) : IsReal fs ⟨place.path, requested⟩ place ∧
      ∃ before within, Located fs requested ⟨place.path, requested⟩ place before within := by
  have hresolve := wf.resolve_path hat (Entry.file_ne_link content) (wf.isOpen_of_realPlace hreal hat)
  obtain ⟨-, before, -, hrequest⟩ := exists_leadsTo hplace
  obtain ⟨-, within, -, hway⟩ := exists_leadsTo hresolve
  have hnone : within = 0 := by
    have hopen := wf.isOpen_of_realPlace hreal hat
    have hne : place ≠ [] := by
      intro hnil
      subst hnil
      cases hat
    have hreaches := hway.reaches
    rw [origin, if_pos place.isAbsolute_path, Place.steps_path hne (wf.validNames hat)] at hreaches
    have hbelow : fs.entry? ([] ++ place) = some (.file content) := hat
    have hnames := wf.reaches_names hbelow (Entry.file_ne_link content)
      fun spot hspot _ => hopen.above spot hspot
    exact (hreaches.unique hnames).1
  subst hnone
  exact ⟨⟨place.isAbsolute_path, ⟨content, hat⟩, hresolve⟩, before, 0, ⟨place, hrequest⟩, hway, hrequest⟩

theorem located_of_names (wf : fs.WellFormed) (hroot : fs.resolve requested = .ok root)
    (hdirectory : fs.isDirectoryAt root = true) {names : List RawPath} (hne : names ≠ [])
    (hvalid : ∀ name ∈ root ++ names, ValidName name) (htext : ∀ name ∈ names, Utf8.IsText name)
    {place : Place} (hplace : fs.resolve (Place.path (root ++ names)) = .ok place) :
    ∃ before within,
      Located fs requested (fileAt requested root.path (Place.path (root ++ names))) place before within := by
  obtain ⟨-, before, -, hrequest⟩ := exists_leadsTo hroot
  obtain ⟨-, within, -, hreal⟩ := exists_leadsTo hplace
  have honward : Reaches fs .stepwise root names within place := by
    have hreaches := hreal.reaches
    rw [origin, if_pos (Place.isAbsolute_path _), Place.steps_path (by simp [hne]) hvalid] at hreaches
    exact wf.reaches_of_append hdirectory hreaches
  have hnames : ∀ name ∈ names, ValidName name := fun name hname =>
    hvalid name (List.mem_append_right _ hname)
  refine ⟨before, within, ⟨root, hrequest⟩, hreal, ?_⟩
  rw [encode_displayPath hvalid htext]
  exact hrequest.append_names hne hnames honward

theorem located_of_mem (wf : fs.WellFormed) (hslash : ∀ ext ∈ extensions, '/' ∉ bareExtension ext)
    (h : filesFor fs requested exclude extensions = .ok files) (hmem : file ∈ files) :
    ∃ place, IsReal fs file place ∧
      (IsSpelled fs requested file → ∃ before within, Located fs requested file place before within) := by
  by_cases hfile : fs.isFile requested = true
  · obtain ⟨place, content, hplace, hat⟩ := exists_file_of_isFile hfile
    cases hreal : fs.realPlace requested with
    | error error => cases (filesFor_refused fs hplace (.inr ⟨content, hat⟩) hreal _ _).symm.trans h
    | ok real =>
      obtain rfl := eq_of_realPlace hreal hplace
      cases (filesFor_file fs hplace hat hreal _ _).symm.trans h
      rw [List.mem_singleton.1 hmem]
      obtain ⟨hisReal, hlocated⟩ := located_of_file wf hplace hat hreal
      exact ⟨real, hisReal, fun _ => hlocated⟩
  by_cases hdirectory : fs.isDirectory requested = true
  · obtain ⟨root, hroot, hat⟩ := exists_resolve_of_target hdirectory
    cases hreal : fs.realPlace requested with
    | error error => cases (filesFor_refused fs hroot (.inl hat) hreal _ _).symm.trans h
    | ok real =>
      obtain rfl := eq_of_realPlace hreal hroot
      rw [filesFor_directory fs hroot hat hreal] at h
      obtain ⟨found, hfound, rfl⟩ := exists_of_map_mapM h
      obtain ⟨path, hkept, rfl⟩ := List.mem_map.1 hmem
      have hpath := mem_of_mem_arranged (List.mem_of_mem_filter hkept)
      obtain ⟨names, hne, hvalid, hisFile, rfl⟩ := exists_names_of_mem_found wf
        (wf.validNames (isDirectoryAt_iff.1 hat)) hslash hfound hpath
      obtain ⟨place, content, hplace, hcontent⟩ := exists_file_of_isFile hisFile
      refine ⟨place, ⟨Place.isAbsolute_path _, ⟨content, hcontent⟩, hplace⟩, fun hspelled => ?_⟩
      obtain ⟨htext, hcanonical⟩ := hspelled hdirectory
      have hroot' : Utf8.IsText real.path := by
        apply hcanonical
        rw [canonical, hreal]
        rfl
      -- A directory whose path is a text is the one that is searched.
      rw [map_reread_of_isText (Place.isText_path_iff.1 hroot')] at hvalid hplace htext ⊢
      refine located_of_names wf hroot hat hne hvalid (fun name hname => ?_) hplace
      exact Place.isText_path_iff.1 htext name (List.mem_append_right _ hname)
  · rw [filesFor, if_neg hfile, if_neg hdirectory] at h
    cases h
    cases hmem

/-- A search finds the files that its walk comes to. -/
theorem exists_files_of_leads (wf : fs.WellFormed) (hroot : fs.resolve requested = .ok root)
    (hdirectory : fs.isDirectoryAt root = true) (hreal : fs.realPlace requested = .ok root)
    (htext : ∀ name ∈ root, Utf8.IsText name) (henters : fs.EntersAll [] (root.map Utf8.lossy))
    (hliteral : ∀ ext ∈ extensions, IsLiteral ext) {ext : String} (hext : ext ∈ extensions)
    {folders : List RawPath} {name : String} (hlength : folders.length < fs.walkBound)
    (hleads : Leads fs root (folders ++ [Utf8.encode name]))
    (hends : '.' :: bareExtension ext <:+ name.toList) (hexclude : ¬ Excluded exclude folders)
    (hfile : fs.isFile (Place.path (root ++ (folders ++ [Utf8.encode name]))) = true) :
    ∃ files, discover fs [requested] exclude extensions = .ok [⟨requested, files⟩] ∧
      fileAt requested root.path (Place.path (root ++ (folders ++ [Utf8.encode name]))) ∈ files := by
  have hslash : ∀ ext ∈ extensions, '/' ∉ bareExtension ext := fun ext hext =>
    slash_not_mem_of_isLiteral (hliteral ext hext)
  have hnames := wf.validNames (isDirectoryAt_iff.1 hdirectory)
  obtain ⟨found, hmap, hfound⟩ := exists_mapM fun ext hext =>
    exists_withExtension (isPattern_of_isLiteral (hliteral ext hext)) fs root
  have hpath : Place.path (root ++ (folders ++ [Utf8.encode name])) ∈ found.flatten := by
    obtain ⟨paths, hpaths⟩ := exists_of_forall₂ hfound hext
    obtain ⟨atoms, hatoms, hmem⟩ := mem_withExtension_iff wf hnames (hslash ext hext) hpaths
    rw [map_reread_of_isText htext] at hmem
    refine (mem_flatten_iff hfound).2 ⟨ext, hext, paths, hpaths, (hmem _).2 ?_⟩
    have haccepts := (accepts_literal (hliteral ext hext) hatoms name.toList).2 hends
    exact ⟨hfile, henters, folders, _, hlength, hleads, Pattern.acceptsName_iff.2 ⟨name, rfl, haccepts⟩, rfl⟩
  have hvalid : ∀ part ∈ root ++ (folders ++ [Utf8.encode name]), ValidName part := by
    intro part hpart
    rcases List.mem_append.1 hpart with hpart | hpart
    · exact hnames part hpart
    · exact wf.validNames_of_leads hleads part hpart
  have hkept : Place.path (root ++ (folders ++ [Utf8.encode name])) ∈
      keptPaths root.path exclude found.flatten := by
    rw [keptPaths, List.mem_filter, mem_arranged_iff wf hnames hslash hfound, stepsFrom_path hvalid,
      Bool.not_eq_true', Bool.eq_false_iff, Ne, isExcluded_iff]
    exact ⟨hpath, hexclude⟩
  have hmem : fileAt requested root.path (Place.path (root ++ (folders ++ [Utf8.encode name]))) ∈
      keptFiles requested root.path exclude found.flatten := List.mem_map_of_mem hkept
  refine ⟨keptFiles requested root.path exclude found.flatten, ?_, hmem⟩
  rw [discover_single, groupFor, filesFor_directory fs hroot hdirectory hreal, hmap]
  exact congrArg Except.ok (if_neg fun hempty => List.ne_nil_of_mem hmem (List.isEmpty_iff.1 hempty))

end Discovery

/-! ### Going round a link -/

/-- A directory with a link to itself and a file, both of which can be looked at from behind as many links
as a path may run through. -/
structure HasLoop (fs : FileSystem) (here : Place) (name : RawPath) (other : String) : Prop where
  wf : fs.WellFormed
  ne_nil : here ≠ []
  isDirectory : fs.isDirectoryAt here = true
  loop : fs.entry? (here ++ [name]) = some (.link ".")
  file : ∃ content, fs.entry? (here ++ [Utf8.encode other]) = some (.file content)
  closed : fs.closed = []
  readable : fs.refusal? here = none
  short : ∀ k ≤ FileSystem.maxLinks,
    (Place.path (here ++ (List.replicate k name ++ [Utf8.encode other]))).length ≤ FileSystem.maxPath

namespace HasLoop

open Discovery FileSystem

variable {fs : FileSystem} {here : Place} {name : RawPath} {other requested : String}
  (h : HasLoop fs here name other)
include h

theorem not_mem_closed (spot : Place) : spot ∉ fs.closed := by
  rw [h.closed]
  exact List.not_mem_nil

theorem barrier?_eq_none (step : RawPath) : fs.barrier? .stepwise here step = none := by
  rw [barrier?, h.isDirectory, h.closed]
  simp

/-- The link can be passed any number of times. -/
theorem reaches (k : Nat) : Reaches fs .stepwise here (List.replicate k name) k here := by
  have hname := isIdle_of_validName (h.wf.validNames h.loop name (by simp))
  induction k with
  | zero => exact .done here
  | succ k ih =>
    have hround : Reaches fs .stepwise here ("." :: List.replicate k name) (0 + k) here :=
      .step (h.barrier?_eq_none ".") (.current (.inr rfl)) ih
    rw [Nat.zero_add] at hround
    rw [List.replicate_succ, Nat.add_comm]
    exact .step (h.barrier?_eq_none name) (.link hname h.loop) hround

theorem leadsTo (k : Nat) : LeadsTo fs (Place.path (here ++ List.replicate k name)) k here := by
  have hvalid := h.wf.validNames h.loop
  have hall : ∀ part ∈ here ++ List.replicate k name, ValidName part := by
    intro part hpart
    rcases List.mem_append.1 hpart with hpart | hpart
    · exact hvalid part (List.mem_append_left _ hpart)
    · exact hvalid part (List.eq_of_mem_replicate hpart ▸ by simp)
  have hopen : ∀ spot ∈ fs.closed, spot <+: here → spot = here := fun spot hspot =>
    absurd hspot (h.not_mem_closed spot)
  exact (h.wf.leadsTo_path_iff h.isDirectory hopen (by simp [h.ne_nil]) hall).2 (h.reaches k)

theorem length_le {k : Nat} (hk : k ≤ maxLinks) :
    (Place.path (here ++ List.replicate k name)).length ≤ maxPath := by
  have hshort := h.short k hk
  rw [← List.append_assoc] at hshort
  exact (Place.length_path_le _ _).trans hshort

/-- A walk goes round the link until there are too many links behind it, and lists the same names there. -/
theorem leads (k j : Nat) (hle : j + k ≤ maxLinks) :
    Leads fs (here ++ List.replicate j name) (List.replicate k name ++ [Utf8.encode other]) := by
  obtain ⟨content, hother⟩ := h.file
  have hround := h.leadsTo j
  have hshort := h.length_le (show j ≤ maxLinks by omega)
  induction k generalizing j with
  | zero => exact .cons (hround.lists hshort (by omega) h.isDirectory h.readable hother) (.nil _)
  | succ k ih =>
    refine .cons (hround.lists hshort (by omega) h.isDirectory h.readable h.loop) ?_
    rw [List.append_assoc, ← List.replicate_succ']
    exact ih (j + 1) (by omega) (h.leadsTo (j + 1)) (h.length_le (show j + 1 ≤ maxLinks by omega))

/-- The file beside the link is found behind each number of links. -/
theorem exists_files {n : Nat} (hrequest : LeadsTo fs requested n here) (hn : n ≤ maxLinks)
    (hlength : (Utf8.encode requested).length ≤ maxPath) (hreal : fs.realPlace requested = .ok here)
    (htext : ∀ part ∈ name :: here, Utf8.IsText part) (henters : fs.EntersAll [] (here.map Utf8.lossy))
    {ext : String} (hext : IsLiteral ext) (hends : '.' :: bareExtension ext <:+ other.toList) {k : Nat}
    (hk : k ≤ maxLinks) :
    let names := List.replicate k name ++ [Utf8.encode other]
    ∃ files file, discover fs [requested] [] [ext] = .ok [⟨requested, files⟩] ∧ file ∈ files ∧
      file.realPath = Place.path (here ++ names) ∧
      Utf8.encode file.displayPath = Utf8.encode (Path.trimEnd requested) ++ Place.path names ∧
      LeadsTo fs file.realPath k (here ++ [Utf8.encode other]) ∧
      LeadsTo fs file.displayPath (n + k) (here ++ [Utf8.encode other]) := by
  intro names
  obtain ⟨content, hother⟩ := h.file
  obtain ⟨hname, hhere⟩ := List.forall_mem_cons.1 htext
  have hleads : Leads fs here names := by
    have hfirst := h.leads k 0 (by omega)
    rwa [List.replicate_zero, List.append_nil] at hfirst
  have hvalid : ∀ part ∈ here ++ names, ValidName part := by
    intro part hpart
    rcases List.mem_append.1 hpart with hpart | hpart
    · exact h.wf.validNames h.loop part (List.mem_append_left _ hpart)
    · exact h.wf.validNames_of_leads hleads part hpart
  have honward : Reaches fs .stepwise here names k (here ++ [Utf8.encode other]) :=
    (h.reaches k).append (h.wf.reaches_names hother (Entry.file_ne_link content)
      fun spot hspot => absurd hspot (h.not_mem_closed spot))
  have hreach : LeadsTo fs (Place.path (here ++ names)) k (here ++ [Utf8.encode other]) :=
    (h.wf.leadsTo_path_iff h.isDirectory (fun spot hspot => absurd hspot (h.not_mem_closed spot))
      (by simp [h.ne_nil]) hvalid).2 honward
  have hdisplay : Utf8.encode (fileAt requested here.path (Place.path (here ++ names))).displayPath =
      Utf8.encode (Path.trimEnd requested) ++ Place.path names := by
    refine encode_displayPath hvalid fun part hpart => ?_
    rcases List.mem_append.1 hpart with hpart | hpart
    · exact List.eq_of_mem_replicate hpart ▸ hname
    · exact List.mem_singleton.1 hpart ▸ Utf8.isText_encode other
  have hfile : fs.isFile (Place.path (here ++ names)) = true :=
    isFile_of_resolve fs (hreach.resolve_eq_ok (h.short k hk) hk) hother
  have hcount : (List.replicate k name).length < fs.walkBound := by
    rw [List.length_replicate]
    exact Nat.lt_of_lt_of_le (Nat.lt_succ_of_le hk) (Nat.le_mul_of_pos_right _ (Nat.succ_pos _))
  have hexclude : ¬ Excluded [] (List.replicate k name) := by simp [Excluded]
  obtain ⟨files, hfound, hmem⟩ := exists_files_of_leads h.wf (hrequest.resolve_eq_ok hlength hn)
    h.isDirectory hreal hhere henters (List.forall_mem_singleton.2 hext) (List.mem_singleton.2 rfl) hcount
    hleads hends hexclude hfile
  refine ⟨files, _, hfound, hmem, rfl, hdisplay, hreach, ?_⟩
  rw [hdisplay]
  refine hrequest.append_names (by simp [names]) (fun part hpart => ?_) honward
  exact hvalid part (List.mem_append_right _ hpart)

end HasLoop

namespace Discovery

open FileSystem

/-- A directory with a file and a link to the directory itself. -/
def roundTree : FileSystem :=
  { entries := [(["d"], .directory), (["d", "a.t"], .file "".toUTF8), (["d", "e"], .link ".")] }

theorem hasLoop_roundTree : HasLoop roundTree ["d"] "e" "a.t" where
  wf := by decide
  ne_nil := by simp
  isDirectory := rfl
  loop := rfl
  file := ⟨_, rfl⟩
  closed := rfl
  readable := rfl
  short := by decide +kernel

theorem leadsTo_roundTree : LeadsTo roundTree "d/e" 1 ["d"] := by
  have hsteps : steps "d/e" = (["d"] : Place) ++ List.replicate 1 ("e" : RawPath) := by decide
  have hopen : ∀ spot ∈ roundTree.closed, spot <+: ["d"] → spot = ["d"] := fun spot hspot =>
    absurd hspot (hasLoop_roundTree.not_mem_closed spot)
  refine ⟨by decide, ?_⟩
  rw [hsteps]
  exact (hasLoop_roundTree.wf.reaches_append_iff rfl hopen).2 (hasLoop_roundTree.reaches 1)

theorem exists_files_roundTree {k : Nat} (hk : k ≤ maxLinks) :
    let names : Place := List.replicate k ("e" : RawPath) ++ (["a.t"] : Place)
    ∃ files file, discover roundTree ["d/e"] [] ["t"] = .ok [⟨"d/e", files⟩] ∧ file ∈ files ∧
      file.realPath = Place.path ("d" :: names) ∧
      Utf8.encode file.displayPath = Utf8.encode (Path.trimEnd "d/e") ++ Place.path names ∧
      LeadsTo roundTree file.realPath k ["d", "a.t"] ∧
      LeadsTo roundTree file.displayPath (1 + k) ["d", "a.t"] := by
  have hreal : roundTree.realPlace "d/e" = .ok ["d"] := by cbv
  have htext : ∀ part ∈ (["e", "d"] : List RawPath), Utf8.IsText part := by
    simp [Utf8.isText_encode]
  have henters : roundTree.EntersAll [] ((["d"] : Place).map Utf8.lossy) := by
    rw [List.map_singleton, Utf8.lossy_encode, entersAll_cons_iff]
    refine ⟨?_, .nil _⟩
    rw [Enters, if_pos (by decide)]
    cbv
  have hliteral : IsLiteral "t" := by simp [IsLiteral]
  have hends : '.' :: bareExtension "t" <:+ "a.t".toList := by decide
  exact hasLoop_roundTree.exists_files leadsTo_roundTree (by decide) (by decide) hreal htext henters
    hliteral hends hk

end Discovery

open Discovery FileSystem in
/-- **A display path leads to the file that was linted.** In every file system, for extensions without
slashes, the real path of a file that was found is absolute and leads to it. If all names on the way are
texts, the display path leads there too, through the links on the way to the requested path and then those
of the real path; so it can be followed just if these are no more links than a path may run through and
the display path is not too long. -/
theorem discover_display_path {fs : FileSystem} (wf : fs.WellFormed) {paths exclude extensions : List String}
    (hslash : ∀ ext ∈ extensions, '/' ∉ ext.toList) {groups : List PathGroup}
    (h : discover fs paths exclude extensions = .ok groups) :
    ∀ group ∈ groups, ∀ file ∈ group.files, Path.isAbsolute file.realPath = true ∧
      ∃ place content, fs.resolve file.realPath = .ok place ∧ fs.entry? place = some (.file content) ∧
        (IsSpelled fs group.requested file → ∃ before within,
          (∃ root, LeadsTo fs group.requested before root) ∧ LeadsTo fs file.realPath within place ∧
          LeadsTo fs file.displayPath (before + within) place ∧
          fs.resolve file.displayPath =
            if maxPath < (Utf8.encode file.displayPath).length then .error .nameTooLong
            else if before + within ≤ maxLinks then .ok place else .error .tooManyLinks) := by
  intro group hgroup file hfile
  obtain ⟨results, hresults, rfl⟩ := gathered_of_discover h
  obtain ⟨-, -, hfiles⟩ := hresults.mem_iff.1 hgroup
  have hbare : ∀ ext ∈ extensions, '/' ∉ bareExtension ext := fun ext hext hmem =>
    hslash ext hext ((List.dropWhile_sublist _).subset hmem)
  obtain ⟨place, hreal, hlocated⟩ := located_of_mem wf hbare hfiles hfile
  obtain ⟨content, hat⟩ := hreal.isFile
  refine ⟨hreal.isAbsolute, place, content, hreal.resolves, hat, fun hspelled => ?_⟩
  obtain ⟨before, within, hboth⟩ := hlocated hspelled
  exact ⟨before, within, hboth.request, hboth.realPath, hboth.displayPath, hboth.displayPath.resolve_eq⟩

open Discovery FileSystem in
/-- The file is found behind thirty-nine links, and with the one of the request they are forty. -/
theorem discover_display_path_forty_links :
    let names : Place := List.replicate 39 ("e" : RawPath) ++ (["a.t"] : Place)
    roundTree.WellFormed ∧ (∀ ext ∈ ["t"], '/' ∉ ext.toList) ∧
      ∃ files file, discover roundTree ["d/e"] [] ["t"] = .ok [⟨"d/e", files⟩] ∧ file ∈ files ∧
        file.realPath = Place.path ("d" :: names) ∧ IsSpelled roundTree "d/e" file ∧
        roundTree.resolve file.displayPath = .ok ["d", "a.t"] := by
  intro names
  have hslash : ∀ ext ∈ ["t"], '/' ∉ ext.toList := by decide
  obtain ⟨files, file, hfound, hmem, hpath, hshown, hreal, -⟩ :=
    exists_files_roundTree (show 39 ≤ maxLinks by decide)
  obtain ⟨-, place, content, hplace, -, hlocated⟩ :=
    discover_display_path hasLoop_roundTree.wf hslash hfound _ (List.mem_singleton.2 rfl) file hmem
  have hspelled : IsSpelled roundTree "d/e" file := by
    intro _
    rw [hpath]
    refine ⟨by decide +kernel, fun root hroot => ?_⟩
    have hcanonical : roundTree.canonical "d/e" = .ok ("/d" : RawPath) := by cbv
    cases hcanonical.symm.trans hroot
    exact Utf8.isText_encode "/d"
  obtain ⟨before, within, ⟨root, hbefore⟩, hwithin, -, hresolve⟩ := hlocated hspelled
  obtain ⟨rfl, -⟩ := leadsTo_roundTree.reaches.unique hbefore.reaches
  obtain ⟨rfl, rfl⟩ := hreal.reaches.unique hwithin.reaches
  have hshort : ¬ maxPath < (Utf8.encode file.displayPath).length := by
    rw [hshown]
    decide +kernel
  rw [if_neg hshort] at hresolve
  exact ⟨hasLoop_roundTree.wf, hslash, files, file, hfound, hmem, hpath, hspelled, hresolve⟩

/-! ### Display paths that lead elsewhere -/

namespace Discovery

open FileSystem

/-- A file that is found has a real path that leads to it and a display path that does not. -/
structure LeadsAstray (fs : FileSystem) (requested : String) (error : FileError) : Prop where
  wf : fs.WellFormed
  found : ∃ files file place, discover fs [requested] [] ["t"] = .ok [⟨requested, files⟩] ∧
    file ∈ files ∧ fs.resolve file.realPath = .ok place ∧ fs.resolve file.displayPath = .error error

/-- What stands in a directory at the root, as it is requested behind so many steps that lead nowhere. -/
def dotted (k : Nat) : String :=
  String.ofList ((List.replicate k ['.', '/']).flatten ++ ['d'])

theorem encode_dotted_succ (k : Nat) :
    Utf8.encode (dotted (k + 1)) = [0x2E] ++ Path.slash :: Utf8.encode (dotted k) := by
  rw [Utf8.encode, dotted, String.toList_ofList, List.replicate_succ, List.flatten_cons,
    List.append_assoc, List.flatMap_append, Utf8.encode, dotted, String.toList_ofList]
  rfl

theorem steps_dotted (k : Nat) :
    steps (dotted k) = List.replicate k ("." : RawPath) ++ (["d"] : Place) := by
  have hparts : Path.parts (dotted k) = List.replicate k ("." : RawPath) ++ (["d"] : Place) := by
    induction k with
    | zero => decide
    | succ k ih =>
      rw [encode_dotted_succ, Path.parts_append, ih, List.replicate_succ]
      rfl
  have hlast : (Utf8.encode (dotted k)).getLast? ≠ some Path.slash := by
    rw [Utf8.encode, dotted, String.toList_ofList, List.flatMap_append,
      List.getLast?_append_of_ne_nil _ (by decide)]
    decide
  rw [steps, if_neg hlast, List.append_nil, hparts]

theorem length_dotted (k : Nat) : (Utf8.encode (dotted k)).length = 2 * k + 1 := by
  induction k with
  | zero => rfl
  | succ k ih =>
    rw [encode_dotted_succ, List.length_append, List.length_singleton, List.length_cons, ih]
    omega

theorem encode_dotted_ne_nil (k : Nat) : Utf8.encode (dotted k) ≠ [] := by
  rw [← List.length_pos_iff, length_dotted]
  omega

theorem isAbsolute_dotted (k : Nat) : Path.isAbsolute (dotted k) = false := by
  cases k with
  | zero => rfl
  | succ k =>
    rw [encode_dotted_succ]
    rfl

theorem mem_dotted {k : Nat} {c : Char} (h : c ∈ (dotted k).toList) : c = '.' ∨ c = '/' ∨ c = 'd' := by
  rw [dotted, String.toList_ofList, List.mem_append] at h
  rcases h with hpoint | hname
  · obtain ⟨part, hpart, hc⟩ := List.mem_flatten.1 hpoint
    rw [List.eq_of_mem_replicate hpart] at hc
    simp only [List.mem_cons, List.not_mem_nil, or_false] at hc
    exact hc.imp_right .inl
  · exact .inr (.inr (List.mem_singleton.1 hname))

theorem trimEnd_dotted (k : Nat) : Path.trimEnd (dotted k) = dotted k := by
  rw [Path.trimEnd, dotted, String.toList_ofList, Text.trimEnd, List.reverse_append]
  simp

theorem reaches_dotted {fs : FileSystem} {manner : Manner} {here : Place} {entry : Entry}
    (hcurrent : fs.barrier? manner here "." = none) (hname : fs.barrier? manner here "d" = none)
    (hentry : fs.entry? (here ++ (["d"] : Place)) = some entry) (hlink : ∀ target, entry ≠ .link target)
    (k : Nat) : Reaches fs manner here (steps (dotted k)) 0 (here ++ (["d"] : Place)) := by
  rw [steps_dotted]
  induction k with
  | zero => exact .step hname (.entry (by decide) hentry hlink) (.done _)
  | succ k ih => exact .step hcurrent (.current (.inr rfl)) ih

/-- A directory with a file. -/
def flatTree : FileSystem :=
  { entries := [(["d"], .directory), (["d", "a.t"], .file "".toUTF8)] }

theorem reaches_dotted_flatTree (manner : Manner) (k : Nat) :
    Reaches flatTree manner [] (steps (dotted k)) 0 ["d"] := by
  apply reaches_dotted _ _ rfl Entry.directory_ne_link
  · cases manner <;> decide
  · cases manner <;> decide

theorem leadsAstray_dotted : LeadsAstray flatTree (dotted 2046) .nameTooLong := by
  have tree : flatTree.IsTree := by decide
  have hliteral : ∀ ext ∈ ["t"], IsLiteral ext := by simp [IsLiteral]
  have hne := encode_dotted_ne_nil 2046
  have horigin : origin (dotted 2046) flatTree.workingDirectory = [] := by
    rw [origin]
    split <;> rfl
  have hleads : LeadsTo flatTree (dotted 2046) 0 ["d"] := by
    refine ⟨hne, ?_⟩
    rw [horigin]
    exact reaches_dotted_flatTree .stepwise 2046
  have hresolve : flatTree.resolve (dotted 2046) = .ok ["d"] := by
    refine hleads.resolve_eq_ok ?_ (Nat.zero_le _)
    rw [length_dotted]
    decide
  have hreal : flatTree.realPlace (dotted 2046) = .ok ["d"] := by
    rw [realPlace, if_neg hne, horigin]
    exact (reaches_dotted_flatTree .absolute 2046).follow_eq maxLinks
  obtain ⟨ways, -, hways, hfiles⟩ := exists_ways tree (isDirectory_of_resolve _ hresolve rfl) hreal
    (Utf8.isText_encode "/d") (by simp) [] hliteral
  have hway : (["a.t"] : Place) ∈ ways := by
    refine (hways _).2 ⟨[], "a.t", rfl, ⟨_, rfl⟩, Utf8.isText_encode "a.t", ?_, by simp [Excluded], by decide,
      fun _ _ => rfl, fun _ _ _ => .inr rfl⟩
    rw [Utf8.lossy_encode]
    exact ⟨"t", by simp, by decide⟩
  have hmem := List.mem_map_of_mem hway (f := fileBelow (dotted 2046) ["d"])
  have hfile : flatTree.resolve "/d/a.t" = .ok ["d", "a.t"] := by cbv
  refine ⟨tree.toWellFormed, _, _, ["d", "a.t"], ?_, hmem, hfile, ?_⟩
  · rw [discover_single, groupFor, hfiles]
    exact congrArg Except.ok (if_neg fun hempty => List.ne_nil_of_mem hmem (List.isEmpty_iff.1 hempty))
  · have hlong : maxPath < (Utf8.encode (fileBelow (dotted 2046) ["d"] ["a.t"]).displayPath).length := by
      rw [fileBelow, trimEnd_dotted, Utf8.encode_append, Utf8.encode_append, List.length_append,
        List.length_append, length_dotted, Path.encode_intercalate]
      decide +kernel
    rw [resolve, if_neg (List.ne_nil_of_length_pos (Nat.zero_lt_of_lt hlong)), if_pos hlong]

end Discovery

open Discovery in
/-- A display path may run through too many links, be too long, have a replacement character where a name
is no text, and go through a directory that is closed, where the real path does not. -/
theorem discover_display_path_astray :
    let bytes : RawPath := [0xE9]
    LeadsAstray roundTree "d/e" .tooManyLinks ∧ LeadsAstray flatTree (dotted 2046) .nameTooLong ∧
      LeadsAstray { entries := [(["e"], .directory), (["e", bytes], .directory),
        (["e", bytes, "a.t"], .file "".toUTF8)] } "e" .missing ∧
      LeadsAstray ⟨[([bytes], .directory), (["l"], .link bytes), (["\ufffd"], .directory),
        (["\ufffd", "a.t"], .file "".toUTF8)], [], [], [[bytes]]⟩ "l" .denied := by
  intro bytes
  refine ⟨⟨by decide, ?_⟩, leadsAstray_dotted, ⟨by decide, ?_⟩, ⟨by decide, ?_⟩⟩
  · obtain ⟨files, file, hfound, hmem, hpath, hshown, hreal, hdisplay⟩ :=
      exists_files_roundTree (le_refl FileSystem.maxLinks)
    refine ⟨files, file, _, hfound, hmem, hreal.resolve_eq_ok ?_ (le_refl _), ?_⟩
    · rw [hpath]
      decide +kernel
    · have hshort : ¬ FileSystem.maxPath < (Utf8.encode file.displayPath).length := by
        rw [hshown]
        decide +kernel
      rw [hdisplay.resolve_eq, if_neg hshort]
      rfl
  · exact ⟨[⟨"/e" ++ Path.slash :: bytes ++ Path.slash :: "a.t", "e/\ufffd/a.t"⟩], _, ["e", bytes, "a.t"],
      by cbv, List.mem_singleton_self _, by cbv, by cbv⟩
  · exact ⟨[⟨"/\ufffd/a.t", "l/../\ufffd/a.t"⟩], _, ["\ufffd", "a.t"], by cbv, List.mem_singleton_self _,
      by cbv, by cbv⟩

end TemplateLint
