import TemplateLint.Proofs.Files.DisplayPath
import TemplateLint.Proofs.Files.Relocation
import TemplateLint.Proofs.Settings.ProjectRoot

/-!
# The paths of a config file

The paths of a config file are meant from the directory of the project, but a run reads paths from its
working directory. So they are rewritten, unless the working directory is that of the project. A path
behind the root is followed as one path in two parts: to the project and on from there. So it leads where
it leads from the project, unless one of the limits is met that count from the front of a path.

If the project root that is given has an absolute path, the root is the absolute path of the project
(`rootFrom_eq_path`), with no link on it and no closed directory above it, and only its length counts. A
project root that leads nowhere is kept as it is written. Then the root may be a link to the project, and
there may be no absolute path for what is behind it.

Whether the working directory is the project is seen from the steps of the two. Equal steps lead to the
same place (`WellFormed.eq_of_isHere`): a path has no links on its way if it is spelled like the path of a
place that is reached, and single points on the way mean nothing.
-/

namespace TemplateLint

theorem Path.isText_join {root path : RawPath} (hroot : Utf8.IsText root) (hpath : Utf8.IsText path) :
    Utf8.IsText (join root path) := by
  rw [join]
  split
  · exact hpath
  · split
    · exact hroot.append hpath
    · exact hroot.append (Utf8.IsText.append (Utf8.isText_encode "/") hpath)

namespace FileSystem

variable {fs : FileSystem} {here project place : Place} {root path : RawPath} {k : Nat}

/-! ### Paths from a project -/

section Relative

variable (hrelative : Path.isAbsolute path = false) (hne : path ≠ [])
include hrelative hne

theorem resolve_relative : (fs.seenFrom here).resolve path =
    if maxPath < path.length then .error .nameTooLong
    else fs.follow .stepwise maxLinks here (steps path) := by
  rw [resolve, if_neg hne, follow_seenFrom, origin, hrelative]
  rfl

theorem realPlace_relative :
    (fs.seenFrom here).realPlace path = fs.follow .absolute maxLinks here (steps path) := by
  rw [realPlace, if_neg hne, follow_seenFrom, origin, hrelative]
  rfl

theorem resolve_join (hway : Reaches fs .stepwise (origin root here) (Path.parts root) k project) :
    (fs.seenFrom here).resolve (Path.join root path) =
      if maxPath < (Path.join root path).length then .error .nameTooLong
      else if k ≤ maxLinks then fs.follow .stepwise (maxLinks - k) project (steps path)
      else .error .tooManyLinks := by
  rw [resolve, if_neg (Path.join_ne_nil root hrelative hne), follow_seenFrom, workingDirectory_seenFrom,
    Path.origin_join root hrelative, Path.steps_join root hrelative hne, hway.follow_append]

theorem realPlace_join : (fs.seenFrom here).realPlace (Path.join root path) =
    fs.follow .absolute maxLinks (origin root here) (Path.parts root ++ steps path) := by
  rw [realPlace, if_neg (Path.join_ne_nil root hrelative hne), follow_seenFrom, workingDirectory_seenFrom,
    Path.origin_join root hrelative, Path.steps_join root hrelative hne]

end Relative

theorem length_le_join (root : RawPath) (hrelative : Path.isAbsolute path = false) :
    path.length ≤ (Path.join root path).length := by
  obtain ⟨front, hfront⟩ := Path.exists_join_eq root hrelative
  rw [hfront, List.length_append]
  exact Nat.le_add_left _ _

theorem length_path_le_join (place : Place) (hrelative : Path.isAbsolute path = false) :
    place.path.length ≤ (Path.join place.path path).length := by
  have hroot : ¬ (Path.isAbsolute path || decide (place.path = [])) = true := by
    simp [hrelative, place.path_ne_nil]
  rw [Path.join, if_neg hroot]
  split
  · rw [List.length_append]
    omega
  · rw [List.length_append]
    omega

theorem length_join_le (root : RawPath) {other : RawPath} (hrelative : Path.isAbsolute path = false)
    (hother : Path.isAbsolute other = false) (hle : path.length ≤ other.length) :
    (Path.join root path).length ≤ (Path.join root other).length := by
  unfold Path.join
  rw [hrelative, hother]
  split
  · exact hle
  · split
    · rw [List.length_append, List.length_append]
      omega
    · rw [List.length_append, List.length_append, List.length_cons, List.length_cons]
      omega

theorem join_absolute (habsolute : Path.isAbsolute path = true) : Path.join root path = path := by
  rw [Path.join, habsolute]
  rfl

/-- A path behind the project root leads where it leads from the project, if there are not too many links
on both together and it is not too long only with the root in front. -/
theorem resolve_join_eq (hway : Reaches fs .stepwise (origin root here) (Path.parts root) k project)
    (hne : path ≠ []) (hshort : maxPath < (Path.join root path).length → maxPath < path.length)
    (hlinks : k = 0 ∨ ((fs.seenFrom here).resolve (Path.join root path) = .error .tooManyLinks →
      (fs.seenFrom project).resolve path = .error .tooManyLinks)) :
    (fs.seenFrom here).resolve (Path.join root path) = (fs.seenFrom project).resolve path := by
  cases habsolute : Path.isAbsolute path with
  | true =>
    rw [join_absolute habsolute, resolve_seenFrom fs here habsolute, resolve_seenFrom fs project habsolute]
  | false =>
    by_cases hlong : maxPath < (Path.join root path).length
    · rw [resolve_join habsolute hne hway, if_pos hlong, resolve_relative habsolute hne, if_pos (hshort hlong)]
    have hpath : ¬ maxPath < path.length := by
      have hle := length_le_join root habsolute
      omega
    rcases hlinks with rfl | hlinks
    · rw [resolve_join habsolute hne hway, if_neg hlong, if_pos (Nat.zero_le _), resolve_relative habsolute hne,
        if_neg hpath, Nat.sub_zero]
    by_cases htoo : (fs.seenFrom here).resolve (Path.join root path) = .error .tooManyLinks
    · rw [htoo, hlinks htoo]
    · rw [resolve_join habsolute hne hway, if_neg hlong] at htoo ⊢
      by_cases hk : k ≤ maxLinks
      · rw [if_pos hk] at htoo ⊢
        rw [resolve_relative habsolute hne, if_neg hpath, ← follow_of_more_links htoo k, Nat.sub_add_cancel hk]
      · rw [if_neg hk] at htoo
        exact absurd rfl htoo

/-- An absolute path that is found behind the project root is found from the project. -/
theorem realPlace_of_join (hway : Reaches fs .stepwise (origin root here) (Path.parts root) k project)
    (hne : path ≠ []) (h : (fs.seenFrom here).realPlace (Path.join root path) = .ok place) :
    (fs.seenFrom project).realPlace path = .ok place := by
  cases habsolute : Path.isAbsolute path with
  | true =>
    rw [join_absolute habsolute, realPlace_seenFrom fs here habsolute] at h
    rwa [realPlace_seenFrom fs project habsolute]
  | false =>
    rw [realPlace_join habsolute hne] at h
    obtain ⟨n, hle, hreaches⟩ := exists_reaches h
    obtain ⟨middle, i, j, rfl, hfront, honward⟩ := hreaches.of_append
    obtain ⟨rfl, rfl⟩ := hfront.unique hway
    rw [realPlace_relative habsolute hne, honward.follow_eq, if_pos (by omega)]

theorem exists_reaches_of_resolve (h : (fs.seenFrom here).resolve path = .ok place) :
    ∃ n ≤ maxLinks, Reaches fs .stepwise (origin path here) (steps path) n place := by
  unfold resolve at h
  split at h
  · cases h
  · split at h
    · cases h
    · rw [follow_seenFrom, workingDirectory_seenFrom] at h
      exact exists_reaches h

theorem exists_reaches_of_realPlace (h : (fs.seenFrom here).realPlace path = .ok place) :
    ∃ n ≤ maxLinks, Reaches fs .absolute (origin path here) (steps path) n place := by
  unfold realPlace at h
  split at h
  · cases h
  · rw [follow_seenFrom, workingDirectory_seenFrom] at h
    exact exists_reaches h

/-- The way to a project, as it is known from a path that asks for its directory. -/
theorem exists_way (h : (fs.seenFrom here).resolve (Path.join root ".") = .ok project) :
    (Path.join root ".").length ≤ maxPath ∧ ∃ k ≤ maxLinks,
      Reaches fs .stepwise (origin root here) (Path.parts root) k project ∧
        fs.barrier? .stepwise project "." = none := by
  have hpoint : Path.isAbsolute "." = false := rfl
  obtain ⟨n, hle, hreaches⟩ := exists_reaches_of_resolve h
  rw [Path.origin_join root hpoint, Path.steps_join root hpoint (by decide)] at hreaches
  obtain ⟨middle, k, m, rfl, hway, hlast⟩ := hreaches.of_append
  have hsteps : steps "." = (["."] : List RawPath) := by decide
  rw [hsteps] at hlast
  cases hlast with
  | step free leads onward =>
    obtain ⟨rfl, rfl, rfl⟩ := leads.of_current (.inr rfl)
    cases onward
    exact ⟨(exists_leadsTo h).1, k, by omega, hway, free⟩

/-- The working directory is the project, if it is spelled like its root or the root is a point. -/
theorem WellFormed.eq_of_isHere (wf : fs.WellFormed) (hhere : fs.isDirectoryAt here = true)
    (hway : Reaches fs .stepwise (origin root here) (Path.parts root) k project)
    (h : Settings.isHere (fs.seenFrom here) root = true ∨ Path.same root "." = true) : here = project := by
  have hreached := wf.reached (isDirectoryAt_iff.1 hhere) Entry.directory_ne_link
  rcases h with hisHere | hpoint
  · obtain ⟨target, htarget, hspelled⟩ := Settings.isHere_iff.1 hisHere
    have habsolute : Path.isAbsolute here.path = true := here.isAbsolute_path
    obtain ⟨n, -, hreaches⟩ := exists_reaches_of_realPlace htarget
    have hparts := hreaches.parts
    rw [workingDirectory_seenFrom, origin, if_pos habsolute, Place.parts_path hreached.validNames] at hparts
    obtain ⟨-, htarget'⟩ := Reached.eq_of_reaches [] hreached hparts
    rw [show target = here from htarget'] at hspelled
    have hproject := reaches_of_same_path hreached.validNames hspelled hway
    exact (Reached.eq_of_reaches [] hreached hproject).2.symm
  · have hsame : Path.same "." root = true := by
      rw [Path.same_iff] at hpoint ⊢
      exact hpoint.symm
    have hproject := reaches_of_same hsame hway
    have hnothing : (Path.parts ".").filter (fun part : RawPath => part ≠ ".") = [] := by decide
    rw [hnothing] at hproject
    cases hproject
    rfl

end FileSystem

open FileSystem

/-! ### The settings of a project -/

/-- Files that are found for the names in one directory and in another one are the same config file. -/
theorem ConfigFile.load_of_resolves (parser : ConfigParser) {fs : FileSystem} {here there : Place}
    {directory directory' : RawPath}
    (h : ∀ name ∈ names, (fs.seenFrom there).resolve (Path.join directory' name) =
      (fs.seenFrom here).resolve (Path.join directory name))
    {path : RawPath} {file : ConfigFile}
    (hload : load parser (fs.seenFrom here) directory = .ok (some (path, file))) :
    ∃ path', load parser (fs.seenFrom there) directory' = .ok (some (path', file)) := by
  have hpresent {name : String} (hname : name ∈ names) :
      (fs.seenFrom there).isPresent (Path.join directory' name) =
        (fs.seenFrom here).isPresent (Path.join directory name) := by
    rw [isPresent, isPresent, target?, target?, h name hname]
    rfl
  have hread {name : String} (hname : name ∈ names) (format : Format) :
      read parser (fs.seenFrom there) (Path.join directory' name) format =
        read parser (fs.seenFrom here) (Path.join directory name) format := by
    rw [read, read, FileSystem.read, FileSystem.read, h name hname]
    rfl
  have hsame : candidate? (fs.seenFrom there) directory' = candidate? (fs.seenFrom here) directory := by
    simp only [candidate?, candidates, List.find?_cons, List.find?_nil,
      hpresent (show "tmplint.toml" ∈ names by decide), hpresent (show "tmplint.yaml" ∈ names by decide),
      hpresent (show "tmplint.yml" ∈ names by decide)]
  cases hcandidate : candidate? (fs.seenFrom here) directory with
  | none =>
    rw [load_of_no_candidate hcandidate] at hload
    cases hload
  | some candidate =>
    obtain ⟨name, format⟩ := candidate
    have hname : name ∈ names := List.mem_map_of_mem (List.mem_of_find?_eq_some hcandidate)
    rw [load_of_candidate hcandidate] at hload
    rw [load_of_candidate (hsame.trans hcandidate), hread hname]
    cases hfile : read parser (fs.seenFrom here) (Path.join directory name) format with
    | error fault =>
      rw [hfile] at hload
      cases hload
    | ok found =>
      rw [hfile] at hload
      cases hload
      exact ⟨_, rfl⟩

namespace Settings

variable {parser : ConfigParser} {fs : FileSystem} {here project : Place} {given : Option String}
  {entries : List String}

/-- The root of the project that a run from a directory is for. -/
abbrev rootFrom (fs : FileSystem) (here : Place) (given : Option String) : RawPath :=
  root (fs.seenFrom here) { projectRoot := given }

/-- A run from a directory, with a project root given or not, finds the project in a directory. -/
structure FindsProject (fs : FileSystem) (here : Place) (given : Option String) (project : Place) : Prop where
  isDirectory : fs.isDirectoryAt here = true
  leads : (fs.seenFrom here).resolve (Path.join (rootFrom fs here given) ".") = .ok project

/-- The project root is given by a path for which there is no absolute one, so it is kept as written. -/
def KeptAsWritten (fs : FileSystem) (here : Place) (given : Option String) : Prop :=
  ∃ e, (fs.seenFrom here).realPlace (written { projectRoot := given }) = .error e

/-- What is asked for in the place of a path in the project is too long or, where the root is kept as
written, runs through too many links only if the path itself does. -/
structure WithinLimits (fs : FileSystem) (here : Place) (given : Option String) (project : Place)
    (request path : RawPath) : Prop where
  short : maxPath < request.length → maxPath < path.length
  links : KeptAsWritten fs here given → (fs.seenFrom here).resolve request = .error .tooManyLinks →
    (fs.seenFrom project).resolve path = .error .tooManyLinks

/-- A run meets no limit for the names of config files and for the entries of the config file that it would
not meet from the project: on lengths, on links, on what can be written as a text and on what there is an
absolute path for. -/
structure Unhindered (fs : FileSystem) (here : Place) (given : Option String) (project : Place)
    (entries : List String) : Prop where
  names : ∀ name ∈ ConfigFile.names,
    WithinLimits fs here given project (Path.join (rootFrom fs here given) name) name
  requests : ∀ entry ∈ entries,
    WithinLimits fs here given project (rooted (fs.seenFrom here) (rootFrom fs here given) entry) entry
  text : ∀ entry ∈ entries, Path.isAbsolute entry = false →
    isHere (fs.seenFrom here) (rootFrom fs here given) = false → Utf8.IsText (rootFrom fs here given)
  realPlaces : KeptAsWritten fs here given → ∀ entry ∈ entries, ∀ place e,
    (fs.seenFrom here).resolve (rooted (fs.seenFrom here) (rootFrom fs here given) entry) = .ok place →
      (fs.seenFrom here).realPlace (rooted (fs.seenFrom here) (rootFrom fs here given) entry) = .error e →
        (fs.seenFrom project).realPlace entry = .error e

/-- If there is an absolute path for the project root that is given, the root is that of the project. -/
theorem rootFrom_eq_path (wf : fs.WellFormed) (hfinds : FindsProject fs here given project)
    (hgiven : ¬ KeptAsWritten fs here given) :
    rootFrom fs here given = project.path ∧ Reached fs project ∧ fs.IsOpen project := by
  obtain ⟨place, hplace⟩ : ∃ place,
      (fs.seenFrom here).realPlace (written { projectRoot := given }) = .ok place := by
    cases hreal : (fs.seenFrom here).realPlace (written { projectRoot := given }) with
    | ok place => exact ⟨place, rfl⟩
    | error e => exact absurd ⟨e, hreal⟩ hgiven
  have horigin (path : RawPath) : Reached fs (origin path here) := by
    rw [origin]
    split
    · exact reached_nil fs
    · exact wf.reached (isDirectoryAt_iff.1 hfinds.isDirectory) Entry.directory_ne_link
  obtain ⟨n, -, hreaches⟩ := exists_reaches_of_realPlace hplace
  have hreached := hreaches.reached (fun step hstep => slash_not_mem_of_mem_steps hstep) (horigin _)
  -- The search goes up from the absolute path, so it ends at the path of a place above.
  obtain ⟨m, hclimbs⟩ := ProjectRoot.exists_climbs (fs.seenFrom here) place.path
  have hroot : rootFrom fs here given = ProjectRoot.detect (fs.seenFrom here) place.path := by
    rw [rootFrom, Settings.root, start_of_realPlace hplace]
  obtain ⟨front, behind, rfl, hfront⟩ := hclimbs.exists_prefix hreached.validNames
  rw [← hroot] at hfront
  have habove := hreached.of_append
  obtain ⟨hlength, k, -, hway, hfree⟩ := exists_way hfinds.leads
  rw [hfront, origin, if_pos front.isAbsolute_path, Place.parts_path habove.validNames] at hway
  obtain ⟨rfl, hproject⟩ := Reached.eq_of_reaches [] habove hway
  obtain rfl : project = front := hproject
  obtain ⟨entry, hentry, hlink⟩ := habove.stands
  have hbelow : fs.entry? ([] ++ project) = some entry := hentry
  have hfollow := (hway.follow_eq 0).trans (if_pos (le_refl 0))
  obtain ⟨-, hopen⟩ := (wf.follow_names 0 hbelow hlink).1 hfollow
  refine ⟨hfront, habove, fun spot hspot hprefix => hopen spot hspot List.nil_prefix hprefix, ?_⟩
  rw [hfront] at hlength
  exact (length_path_le_join project rfl).trans hlength

/-- A path behind the root leads where it leads from the project. -/
theorem resolve_behind_root (wf : fs.WellFormed) (hfinds : FindsProject fs here given project) {path : RawPath}
    (hlimits : WithinLimits fs here given project (Path.join (rootFrom fs here given) path) path)
    (hne : path ≠ []) :
    (fs.seenFrom here).resolve (Path.join (rootFrom fs here given) path) =
      (fs.seenFrom project).resolve path := by
  obtain ⟨-, k, -, hway, -⟩ := exists_way hfinds.leads
  apply resolve_join_eq hway hne hlimits.short
  by_cases hgiven : KeptAsWritten fs here given
  · exact .inr (hlimits.links hgiven)
  · obtain ⟨hroot, hreached, -⟩ := rootFrom_eq_path wf hfinds hgiven
    rw [hroot, origin, if_pos project.isAbsolute_path, Place.parts_path hreached.validNames] at hway
    exact .inl (Reached.eq_of_reaches [] hreached hway).1

/-- An absolute path behind the absolute path of the project is found like one from the project. -/
theorem realPlace_behind_path (hreached : Reached fs project) (hopen : fs.IsOpen project) {path : RawPath}
    (hne : path ≠ []) :
    (fs.seenFrom here).realPlace (Path.join project.path path) = (fs.seenFrom project).realPlace path := by
  cases habsolute : Path.isAbsolute path with
  | true =>
    rw [join_absolute habsolute, realPlace_seenFrom fs here habsolute, realPlace_seenFrom fs project habsolute]
  | false =>
    have hway : Reaches fs .absolute [] project 0 project := Reached.reaches_absolute [] hreached hopen
    rw [realPlace_join habsolute hne, origin, if_pos project.isAbsolute_path,
      Place.parts_path hreached.validNames, hway.follow_append, if_pos (Nat.zero_le _), Nat.sub_zero,
      realPlace_relative habsolute hne]

/-- What is found for an entry of the config file is what is found for it from the project. -/
theorem realFilesAt_rooted (wf : fs.WellFormed) (hfinds : FindsProject fs here given project)
    (hfree : Unhindered fs here given project entries) {entry : String} (hentry : entry ∈ entries)
    (hne : (entry : RawPath) ≠ []) (exclude extensions : List String) :
    let request := rooted (fs.seenFrom here) (rootFrom fs here given) entry
    Discovery.realFilesAt fs exclude extensions ((fs.seenFrom here).resolve request)
        ((fs.seenFrom here).realPlace request) =
      Discovery.realFilesAt fs exclude extensions ((fs.seenFrom project).resolve entry)
        ((fs.seenFrom project).realPlace entry) := by
  intro request
  obtain ⟨-, k, -, hway, -⟩ := exists_way hfinds.leads
  by_cases habsolute : Path.isAbsolute entry = true
  · have hkept : request = entry := by
      simp only [request, rooted, habsolute, Bool.or_true, if_true]
    rw [hkept, resolve_seenFrom fs here habsolute, resolve_seenFrom fs project habsolute,
      realPlace_seenFrom fs here habsolute, realPlace_seenFrom fs project habsolute]
  by_cases hhere : isHere (fs.seenFrom here) (rootFrom fs here given) = true ∨
      Path.same (rootFrom fs here given) "." = true
  · have hkept : request = entry := by
      simp only [request, rooted, Bool.or_eq_true_iff.2 hhere, Bool.true_or, if_true]
    rw [hkept, wf.eq_of_isHere hfinds.isDirectory hway hhere]
  rw [Bool.not_eq_true] at habsolute
  simp only [not_or, Bool.not_eq_true] at hhere
  have hrequest : (request : RawPath) = Path.join (rootFrom fs here given) entry := by
    have htext := hfree.text entry hentry habsolute hhere.1
    simp only [request, rooted, hhere.1, hhere.2, habsolute, Bool.or_self, Bool.false_eq_true, if_false]
    exact (Path.isText_join htext (Utf8.isText_encode entry)).encode_lossy
  have hlimits := hfree.requests entry hentry
  have hreals := fun hgiven => hfree.realPlaces hgiven entry hentry
  rw [show rooted (fs.seenFrom here) (rootFrom fs here given) entry = request from rfl, hrequest]
    at hlimits hreals
  have hresolve := resolve_behind_root wf hfinds hlimits hne
  rw [hrequest, hresolve]
  cases hplace : (fs.seenFrom project).resolve entry with
  | error e => rfl
  | ok place =>
    apply congrArg (Discovery.realFilesAt fs exclude extensions _)
    by_cases hgiven : KeptAsWritten fs here given
    · cases hreal : (fs.seenFrom here).realPlace (Path.join (rootFrom fs here given) entry) with
      | ok spot => exact (realPlace_of_join hway hne hreal).symm
      | error e => exact (hreals hgiven place e (hresolve.trans hplace) hreal).symm
    · obtain ⟨hroot, hreached, hopen⟩ := rootFrom_eq_path wf hfinds hgiven
      rw [hroot]
      exact realPlace_behind_path hreached hopen hne

/-- A run finds the files that the paths of the config file lead to from the project. -/
theorem exists_settings (wf : fs.WellFormed) {config : RawPath} {file : ConfigFile}
    (hconfig : ConfigFile.load parser (fs.seenFrom project) "." = .ok (some (config, file)))
    (hpaths : file.paths = some entries) (hne : ∀ path ∈ entries, (path : RawPath) ≠ [])
    (hfinds : FindsProject fs here given project) (hfree : Unhindered fs here given project entries) :
    ∃ settings, resolve parser (fs.seenFrom here) { projectRoot := given } = .ok settings ∧
      Discovery.outcome Discovery.realFiles
          (discover (fs.seenFrom here) settings.paths settings.exclude settings.extensions) =
        Discovery.outcome Discovery.realFiles
          (discover (fs.seenFrom project) entries (file.exclude.getD []) (file.extensions.getD ["twig"])) := by
  obtain ⟨-, -, -, -, hpoint⟩ := exists_way hfinds.leads
  have hown : Reaches fs .stepwise (origin "." project) (Path.parts ".") 0 project := by
    have hparts : Path.parts "." = (["."] : List RawPath) := by decide
    rw [hparts]
    exact .step hpoint (.current (.inr rfl)) (.done project)
  obtain ⟨config', hload⟩ : ∃ config', ConfigFile.load parser (fs.seenFrom here) (rootFrom fs here given) =
      .ok (some (config', file)) := by
    refine ConfigFile.load_of_resolves parser (fun name hname => ?_) hconfig
    have hshort : ∀ name ∈ ConfigFile.names, ¬ maxPath < (Path.join "." name).length := by decide
    obtain ⟨hname', -⟩ := ConfigFile.names_relative name hname
    rw [resolve_behind_root wf hfinds (hfree.names name hname) hname',
      resolve_join_eq hown hname' (fun hlong => absurd hlong (hshort name hname)) (.inl rfl)]
  refine ⟨_, by rw [resolve_eq, hload]; rfl, ?_⟩
  show Discovery.outcome Discovery.realFiles (discover (fs.seenFrom here) ((file.paths.map _).getD _)
    (file.exclude.getD []) (file.extensions.getD _)) = _
  rw [hpaths, Discovery.outcome_discover, Discovery.outcome_discover]
  simp only [Discovery.realFilesAt_seenFrom, Option.map_some, Option.getD_some, List.map_map]
  apply congrArg Discovery.unite
  apply List.map_congr_left
  intro entry hentry
  exact realFilesAt_rooted wf hfinds hfree hentry (hne entry hentry) _ _

end Settings

/-! ### A config file with one path -/

namespace Toml

/-- Characters that stand for themselves between quotes. -/
def Plain (text : List Char) : Prop :=
  ∀ c ∈ text, c ≠ '"' ∧ c ≠ '\\' ∧ isControl c = false

theorem line_of_plain {text : List Char} (h : Plain text) (rest : List Char) :
    line '"' true (text ++ '"' :: rest) = some (text, text.length + 1) := by
  induction text with
  | nil => rw [List.nil_append, line, if_pos rfl, List.length_nil]
  | cons c text ih =>
    obtain ⟨⟨hquote, hbackslash, hcontrol⟩, htext⟩ := List.forall_mem_cons.1 h
    have hplain : ¬ ((decide (c = '\\') && true) = true) := by simpa using hbackslash
    rw [List.cons_append, line, if_neg hquote, hcontrol, if_neg Bool.false_ne_true, if_neg hplain, ih htext]
    rfl

theorem tokens_of_plain {text : List Char} (h : Plain text) (hne : text ≠ []) :
    tokens ('"' :: text ++ ['"', ']']) = some [.text (String.ofList text), .closing] := by
  have hshort : ¬ (text ++ ['"', ']']).take 2 = ['"', '"'] := by
    cases text with
    | nil => exact absurd rfl hne
    | cons c text =>
      intro htake
      exact (h c List.mem_cons_self).1 (List.cons.inj htake).1
  have hquoted : token? '"' (text ++ ['"', ']']) =
      some (some (.text (String.ofList text)), text.length + 1) := by
    show (quoted '"' true (text ++ ['"', ']'])).map _ = _
    rw [quoted, if_neg hshort, line_of_plain h]
    rfl
  have hrest : (text ++ ['"', ']']).drop (text.length + 1) = [']'] := by simp
  rw [List.cons_append, tokens, hquoted]
  dsimp only
  rw [hrest, show tokens [']'] = some [.closing] by cbv]
  rfl

end Toml

/-- The text of a config file that gives one path. -/
def configText (path : String) : String :=
  "paths=[\"" ++ path ++ "\"]"

theorem Toml.read?_configText {path : String} (h : Plain path.toList) (hne : path ≠ "") :
    read? (configText path) = some [("paths", .list [path])] := by
  have hchars : (configText path).toList =
      'p' :: 'a' :: 't' :: 'h' :: 's' :: '=' :: '[' :: ('"' :: path.toList ++ ['"', ']']) := by
    simp [configText]
  have htext := tokens_of_plain h (by simpa using hne)
  have htokens : tokens ('p' :: 'a' :: 't' :: 'h' :: 's' :: '=' :: '[' :: ('"' :: path.toList ++ ['"', ']'])) =
      some [.word "paths", .equals, .opening, .text path, .closing] := by
    rw [tokens]
    show (tokens ('=' :: '[' :: _)).map _ = _
    rw [tokens]
    show ((tokens ('[' :: _)).map _).map _ = _
    rw [tokens]
    show (((tokens ('"' :: _ ++ _)).map _).map _).map _ = _
    rw [htext, String.ofList_toList]
    rfl
  rw [read?, hchars]
  show tokens ('p' :: _) >>= _ = _
  rw [htokens]
  rfl

theorem ConfigParser.flat_configText {path : String} (h : Toml.Plain path.toList) (hne : path ≠ "") :
    ConfigParser.flat .toml (configText path) = .ok { paths := some [path] } := by
  rw [flat, ConfigFile.ofText, show ConfigFile.Format.toml.read? = Toml.read? from rfl,
    Toml.read?_configText h hne]
  rfl

namespace Settings

variable {fs : FileSystem} {here project place : Place} {given : Option String} {root : RawPath} {path : String}

section OnePath

variable (hplain : Toml.Plain path.toList) (hne : path ≠ "")
  (hfile : fs.entry? place = some (.file (configText path).toUTF8)) (hreadable : fs.refusal? place = none)
include hplain hne hfile hreadable

theorem load_configText (hplace : (fs.seenFrom here).resolve (Path.join root "tmplint.toml") = .ok place) :
    ConfigFile.load .flat (fs.seenFrom here) root =
      .ok (some (Path.join root "tmplint.toml", { paths := some [path] })) := by
  rw [ConfigFile.load_of_toml hplace hfile, ConfigFile.read_of_text hplace hfile hreadable,
    ConfigParser.flat_configText hplain hne]
  rfl

theorem resolve_configText (hroot : rootFrom fs here given = root)
    (hplace : (fs.seenFrom here).resolve (Path.join root "tmplint.toml") = .ok place) :
    resolve .flat (fs.seenFrom here) { projectRoot := given } =
      .ok { projectRoot := root, configFile := some (Path.join root "tmplint.toml"),
            paths := [rooted (fs.seenFrom here) root path] } := by
  have hload := load_configText hplain hne hfile hreadable hplace
  rw [← hroot] at hload ⊢
  rw [resolve_eq, hload]
  rfl

end OnePath

end Settings

theorem Discovery.outcome_single (fs : FileSystem) (requested : String) (exclude extensions : List String) :
    outcome realFiles (discover fs [requested] exclude extensions) =
      realFilesAt fs exclude extensions (fs.resolve requested) (fs.realPlace requested) := by
  rw [outcome_discover, List.map_singleton, unite_cons]
  cases realFilesAt fs exclude extensions (fs.resolve requested) (fs.realPlace requested) with
  | error e => rfl
  | ok found =>
    refine congrArg Except.ok (Set.ext fun path => ?_)
    simp

/-! ### A path that is found from the project only -/

/-- Two runs find a project whose config file gives one path, but only the run from the project itself
finds the file that the path leads to. -/
structure FoundInside (fs : FileSystem) (project : Place) (path : String) (here : Place)
    (given : Option String) : Prop where
  wf : fs.WellFormed
  config : ∃ config, ConfigFile.load .flat (fs.seenFrom project) "." =
    .ok (some (config, { paths := some [path] }))
  inside : Settings.FindsProject fs project none project
  outside : Settings.FindsProject fs here given project
  found : ∃ settings file, Settings.resolve .flat (fs.seenFrom project) {} = .ok settings ∧
    Discovery.outcome Discovery.realFiles
      (discover (fs.seenFrom project) settings.paths settings.exclude settings.extensions) = .ok {file}
  lost : ∃ settings, Settings.resolve .flat (fs.seenFrom here) { projectRoot := given } = .ok settings ∧
    ∀ file, Discovery.outcome Discovery.realFiles
      (discover (fs.seenFrom here) settings.paths settings.exclude settings.extensions) ≠ .ok {file}

/-- A project whose config file gives one path, and nothing is in the way of the config file. -/
structure OnePath (fs : FileSystem) (project : Place) (path : String) : Prop where
  wf : fs.WellFormed
  ne_nil : project ≠ []
  plain : Toml.Plain path.toList
  ne_empty : path ≠ ""
  file : fs.entry? (project ++ (["tmplint.toml"] : Place)) = some (.file (configText path).toUTF8)
  readable : fs.refusal? (project ++ (["tmplint.toml"] : Place)) = none
  isOpen : fs.IsOpen (project ++ (["tmplint.toml"] : Place))

namespace OnePath

open Settings Discovery

variable {fs : FileSystem} {project here spot : Place} {path : String} {given : Option String}
  {content : ByteArray} (h : OnePath fs project path)
include h

theorem isDirectory : fs.isDirectoryAt project = true :=
  h.wf.isDirectoryAt_of_append (List.cons_ne_nil _ _) h.file

theorem reached : Reached fs project :=
  h.wf.reached (isDirectoryAt_iff.1 h.isDirectory) Entry.directory_ne_link

theorem not_mem_closed : project ∉ fs.closed := by
  intro hclosed
  have hsame := h.isOpen.above project hclosed (List.prefix_append _ _)
  simp at hsame

/-- The config file is found by the absolute path of the project. -/
theorem resolve_config (here : Place) :
    (fs.seenFrom here).resolve (Path.join project.path "tmplint.toml") =
      .ok (project ++ (["tmplint.toml"] : Place)) := by
  have hvalid := h.wf.validNames h.file
  have hjoin : Path.join project.path "tmplint.toml" = Place.path (project ++ (["tmplint.toml"] : Place)) :=
    Place.join_path h.reached.validNames (hvalid _ (by simp))
  rw [hjoin, resolve_seenFrom fs here (Place.isAbsolute_path _)]
  exact h.wf.resolve_path h.file (Entry.file_ne_link _) h.isOpen

theorem rootFrom_of_realPlace
    (hgiven : (fs.seenFrom here).realPlace (written { projectRoot := given }) = .ok project) :
    rootFrom fs here given = project.path :=
  root_of_realPlace hgiven rfl (h.resolve_config here) h.file

theorem barrier?_point (manner : Manner) : fs.barrier? manner project "." = none := by
  cases manner with
  | stepwise => rw [barrier?_stepwise h.isDirectory (by decide), if_neg h.not_mem_closed]
  | absolute =>
    rw [barrier?, h.isDirectory]
    rfl

theorem reaches_point (manner : Manner) : Reaches fs manner project (steps ".") 0 project := by
  have hsteps : steps "." = (["."] : List RawPath) := by decide
  rw [hsteps]
  exact .step (h.barrier?_point manner) (.current (.inr rfl)) (.done project)

theorem way (here : Place) :
    Reaches fs .stepwise (origin project.path here) (Path.parts project.path) 0 project := by
  have hentry : fs.entry? ([] ++ project) = some .directory := isDirectoryAt_iff.1 h.isDirectory
  rw [origin, if_pos project.isAbsolute_path, Place.parts_path h.reached.validNames]
  refine h.wf.reaches_names hentry Entry.directory_ne_link fun other hother _ hprefix => ?_
  exact h.isOpen.of_append.above other hother hprefix

/-- A run whose root is the absolute path of the project finds the project. -/
theorem findsProject (hhere : fs.isDirectoryAt here = true) (hroot : rootFrom fs here given = project.path) :
    FindsProject fs here given project := by
  refine ⟨hhere, ?_⟩
  have hshort : ¬ maxPath < (Path.join project.path ".").length := by
    obtain ⟨hconfig, -⟩ := exists_leadsTo (h.resolve_config here)
    have hle : (Path.join project.path ".").length ≤ (Path.join project.path "tmplint.toml").length :=
      length_join_le project.path rfl rfl (by decide)
    omega
  rw [hroot, resolve_join rfl (by decide) (h.way here), if_neg hshort, if_pos (Nat.zero_le _)]
  exact (h.reaches_point .stepwise).follow_eq maxLinks

/-- The config file is found from the project. -/
theorem resolve_config_point : (fs.seenFrom project).resolve (Path.join "." "tmplint.toml") =
    .ok (project ++ (["tmplint.toml"] : Place)) := by
  have hsteps : steps (Path.join "." "tmplint.toml") = steps "." ++ (["tmplint.toml"] : Place) := by decide
  rw [resolve_relative (by decide) (by decide), if_neg (by decide), hsteps,
    (h.reaches_point .stepwise).follow_append, if_pos (Nat.zero_le _)]
  refine (h.wf.follow_names _ h.file (Entry.file_ne_link _)).2 ⟨rfl, fun other hother _ hprefix => ?_⟩
  exact h.isOpen.above other hother hprefix

theorem realPlace_point : (fs.seenFrom project).realPlace "." = .ok project := by
  rw [realPlace_relative rfl (by decide)]
  exact (h.reaches_point .absolute).follow_eq maxLinks

theorem inside : FindsProject fs project none project :=
  h.findsProject h.isDirectory (h.rootFrom_of_realPlace h.realPlace_point)

theorem isHere : Settings.isHere (fs.seenFrom project) project.path = true := by
  have hway : Reaches fs .absolute [] project 0 project := h.reached.reaches_absolute [] h.isOpen.of_append
  refine isHere_iff.2 ⟨project, ?_, (Path.same_iff _ _).2 rfl⟩
  rw [workingDirectory_seenFrom, realPlace, if_neg project.path_ne_nil, follow_seenFrom, origin,
    if_pos project.isAbsolute_path, Place.steps_path h.ne_nil h.reached.validNames]
  exact hway.follow_eq maxLinks

/-- The run from the project finds the file that the path leads to. -/
theorem found (hspot : (fs.seenFrom project).resolve path = .ok spot)
    (hreal : (fs.seenFrom project).realPlace path = .ok spot)
    (hcontent : fs.entry? spot = some (.file content)) :
    ∃ settings file, resolve .flat (fs.seenFrom project) {} = .ok settings ∧
      outcome realFiles (discover (fs.seenFrom project) settings.paths settings.exclude settings.extensions) =
        .ok {file} := by
  have hroot : rootFrom fs project none = project.path := h.rootFrom_of_realPlace h.realPlace_point
  have hkept : rooted (fs.seenFrom project) project.path path = path := by
    rw [rooted, h.isHere, Bool.true_or, Bool.true_or, if_pos rfl]
  refine ⟨_, spot.path,
    resolve_configText h.plain h.ne_empty h.file h.readable hroot (h.resolve_config project), ?_⟩
  show outcome realFiles (discover (fs.seenFrom project) [_] [] ["twig"]) = _
  rw [hkept, outcome_single, realFilesAt_seenFrom, hspot, hreal, realFilesAt_file fs [] ["twig"] hcontent]
  rfl

/-- Another run does not find it, if there is nothing or no absolute path where its own path leads. -/
theorem foundInside (hspot : (fs.seenFrom project).resolve path = .ok spot)
    (hreal : (fs.seenFrom project).realPlace path = .ok spot) (hcontent : fs.entry? spot = some (.file content))
    {root : RawPath} (houtside : FindsProject fs here given project) (hroot : rootFrom fs here given = root)
    (hconfig : (fs.seenFrom here).resolve (Path.join root "tmplint.toml") =
      .ok (project ++ (["tmplint.toml"] : Place)))
    {request : RawPath} (hrequest : (rooted (fs.seenFrom here) root path : RawPath) = request)
    (hlost : (∃ e, (fs.seenFrom here).resolve request = .error e) ∨
      (fs.seenFrom here).resolve request = .ok spot ∧ ∃ e, (fs.seenFrom here).realPlace request = .error e) :
    FoundInside fs project path here given where
  wf := h.wf
  config := ⟨_, load_configText h.plain h.ne_empty h.file h.readable h.resolve_config_point⟩
  inside := h.inside
  outside := houtside
  found := h.found hspot hreal hcontent
  lost := by
    refine ⟨_, resolve_configText h.plain h.ne_empty h.file h.readable hroot hconfig, fun file => ?_⟩
    show outcome realFiles (discover (fs.seenFrom here) [_] [] ["twig"]) ≠ _
    rw [outcome_single, realFilesAt_seenFrom, hrequest]
    rcases hlost with ⟨e, he⟩ | ⟨hplace, e, he⟩
    · rw [he]
      intro hsame
      have hempty : (∅ : Set RawPath) = {file} := Except.ok.inj hsame
      exact Set.singleton_ne_empty file hempty.symm
    · rw [hplace, he, realFilesAt_file fs [] ["twig"] hcontent]
      intro hsame
      cases hsame

/-- No run with an absolute root that is a text and not too long meets a limit. -/
theorem unhindered (hgiven : (fs.seenFrom here).realPlace (written { projectRoot := given }) = .ok project)
    (hshort : ∀ name ∈ path :: ConfigFile.names, (Path.join project.path name).length ≤ maxPath)
    (htext : Utf8.IsText project.path) : Unhindered fs here given project [path] := by
  have hroot : rootFrom fs here given = project.path := h.rootFrom_of_realPlace hgiven
  have hnotKept : ¬ KeptAsWritten fs here given := by
    intro hkept
    obtain ⟨e, he⟩ := hkept
    cases hgiven.symm.trans he
  obtain ⟨hpath, hnames⟩ := List.forall_mem_cons.1 hshort
  refine ⟨fun name hname => ⟨fun hlong => ?_, fun hkept => absurd hkept hnotKept⟩,
    fun entry hentry => ⟨fun hlong => ?_, fun hkept => absurd hkept hnotKept⟩,
    fun _ _ _ _ => by rwa [hroot], fun hkept => absurd hkept hnotKept⟩
  · rw [hroot] at hlong
    exact absurd (hnames name hname) (Nat.not_le.2 hlong)
  · rw [List.mem_singleton.1 hentry, hroot, rooted] at hlong
    rw [List.mem_singleton.1 hentry]
    split at hlong
    · exact hlong
    · rw [(Path.isText_join htext (Utf8.isText_encode path)).encode_lossy] at hlong
      exact absurd hpath (Nat.not_le.2 hlong)

end OnePath

/-- A project whose config file gives a path through forty links, and a link to the project. -/
def fortyLinks : FileSystem where
  entries := [(["k"], .link "r"), (["r"], .directory), (["r", "tmplint.toml"], .file (configText "x").toUTF8),
    (["r", "a"], .file "".toUTF8), (["r", "e"], .link "."),
    (["r", "x"], .link (Text.joinWith Path.slash (List.replicate 39 ("e" : RawPath) ++ (["a"] : Place))))]

theorem onePath_fortyLinks : OnePath fortyLinks ["r"] "x" where
  wf := by decide
  ne_nil := List.cons_ne_nil _ _
  plain := by simp [Toml.Plain, Toml.isControl]
  ne_empty := by decide
  file := rfl
  readable := rfl
  isOpen := by decide

set_option maxRecDepth 20000 in
theorem resolve_fortyLinks : (fortyLinks.seenFrom ["r"]).resolve "x" = .ok ["r", "a"] := by
  cbv

set_option maxRecDepth 20000 in
theorem realPlace_fortyLinks : (fortyLinks.seenFrom ["r"]).realPlace "x" = .ok ["r", "a"] := by
  cbv

/-- Where the root is kept as a link to the project, there is one link more on the way. -/
theorem foundInside_fortyLinks : FoundInside fortyLinks ["r"] "x" [] (some "k/nope") := by
  have hmissing : (fortyLinks.seenFrom []).realPlace "k/nope" = .error .missing := by cbv
  have hconfig : (fortyLinks.seenFrom []).resolve (Path.join "k" "tmplint.toml") =
      .ok ["r", "tmplint.toml"] := by cbv
  have hroot : Settings.rootFrom fortyLinks [] (some "k/nope") = ("k" : RawPath) := by
    have hstart : Settings.start (fortyLinks.seenFrom []) { projectRoot := some "k/nope" } = "k/nope" :=
      Settings.start_of_error hmissing
    refine Settings.root_of_parent hstart (by decide) (by decide) ?_ hconfig onePath_fortyLinks.file
    intro name hname
    refine ⟨.missing, ?_⟩
    simp only [List.mem_cons, List.not_mem_nil, or_false] at hname
    rcases hname with rfl | rfl | rfl | rfl <;> cbv
  have houtside : Settings.FindsProject fortyLinks [] (some "k/nope") ["r"] := by
    refine ⟨rfl, ?_⟩
    rw [hroot]
    cbv
  have hrooted : (Settings.rooted (fortyLinks.seenFrom []) "k" "x" : RawPath) = "k/x" := by cbv
  refine onePath_fortyLinks.foundInside resolve_fortyLinks realPlace_fortyLinks rfl houtside hroot hconfig
    hrooted (.inl ⟨.tooManyLinks, ?_⟩)
  cbv

/-- A project with a config file and another one. -/
def longTree (content : ByteArray) : FileSystem where
  entries := [(["r"], .directory), (["r", "tmplint.toml"], .file content), (["r", "d"], .file "".toUTF8)]

/-- A project with a file that is given by a path that is nearly as long as may be. -/
def longPath : FileSystem := longTree (configText (Discovery.dotted 2046)).toUTF8

theorem onePath_longPath : OnePath longPath ["r"] (Discovery.dotted 2046) where
  wf := by decide
  ne_nil := List.cons_ne_nil _ _
  plain := by
    intro c hc
    rcases Discovery.mem_dotted hc with rfl | rfl | rfl <;> decide
  ne_empty := by
    intro hempty
    exact Discovery.encode_dotted_ne_nil 2046 (congrArg Utf8.encode hempty)
  file := rfl
  readable := rfl
  isOpen := by decide

section LongTree

variable (content : ByteArray)

theorem realPlace_longTree : ((longTree content).seenFrom []).realPlace "r" = .ok ["r"] := by
  cbv

theorem isHere_longTree : Settings.isHere ((longTree content).seenFrom []) "/r" = false := by
  cbv

theorem reaches_longTree (manner : Manner) (k : Nat) :
    Reaches (longTree content) manner ["r"] (steps (Discovery.dotted k)) 0 ["r", "d"] := by
  apply Discovery.reaches_dotted _ _ rfl (Entry.file_ne_link "".toUTF8)
  · cases manner <;> rfl
  · cases manner <;> rfl

end LongTree

/-- With the root in front, the path is too long. -/
theorem foundInside_longPath : FoundInside longPath ["r"] (Discovery.dotted 2046) [] (some "r") := by
  have hne := Discovery.encode_dotted_ne_nil 2046
  have hrelative := Discovery.isAbsolute_dotted 2046
  have hlength := Discovery.length_dotted 2046
  have hroot : Settings.rootFrom longPath [] (some "r") = Place.path ["r"] :=
    onePath_longPath.rootFrom_of_realPlace (realPlace_longTree _)
  have hresolve : (longPath.seenFrom ["r"]).resolve (Discovery.dotted 2046) = .ok ["r", "d"] := by
    rw [resolve_relative hrelative hne, hlength, if_neg (by decide)]
    exact (reaches_longTree _ .stepwise 2046).follow_eq maxLinks
  have hreal : (longPath.seenFrom ["r"]).realPlace (Discovery.dotted 2046) = .ok ["r", "d"] := by
    rw [realPlace_relative hrelative hne]
    exact (reaches_longTree _ .absolute 2046).follow_eq maxLinks
  have hjoin : Path.join (Place.path ["r"]) (Discovery.dotted 2046) =
      "/r/" ++ Utf8.encode (Discovery.dotted 2046) := by
    have hrelativeRoot : ¬ (false || decide (Place.path ["r"] = [])) = true := by decide
    rw [Path.join, hrelative, if_neg hrelativeRoot, if_neg (by decide)]
    exact List.append_cons _ _ _
  have hrooted : (Settings.rooted (longPath.seenFrom []) (Place.path ["r"]) (Discovery.dotted 2046) :
      RawPath) = Path.join (Place.path ["r"]) (Discovery.dotted 2046) := by
    have htext := Path.isText_join (Utf8.isText_encode "/r") (Utf8.isText_encode (Discovery.dotted 2046))
    have hhere : Settings.isHere (longPath.seenFrom []) (Place.path ["r"]) = false := isHere_longTree _
    rw [Settings.rooted, hhere, hrelative, if_neg (by decide)]
    exact htext.encode_lossy
  have hlong : maxPath < (Path.join (Place.path ["r"]) (Discovery.dotted 2046)).length := by
    rw [hjoin, List.length_append, hlength]
    decide
  refine onePath_longPath.foundInside hresolve hreal rfl (onePath_longPath.findsProject rfl hroot) hroot
    (onePath_longPath.resolve_config []) hrooted (.inl ⟨.nameTooLong, ?_⟩)
  rw [resolve_join hrelative hne (onePath_longPath.way []), if_pos hlong]

/-- A project in a directory whose name is no text. -/
def noText : FileSystem :=
  let name : RawPath := [0xE9]
  { entries := [([name], .directory), ([name, "tmplint.toml"], .file (configText "x").toUTF8),
      ([name, "x"], .file "".toUTF8), ([name, "sub"], .directory)] }

theorem onePath_noText : OnePath noText [[0xE9]] "x" where
  wf := by decide
  ne_nil := List.cons_ne_nil _ _
  plain := onePath_fortyLinks.plain
  ne_empty := onePath_fortyLinks.ne_empty
  file := rfl
  readable := rfl
  isOpen := by decide

/-- With the root in front, the path is written with a replacement character. -/
theorem foundInside_noText : FoundInside noText [[0xE9]] "x" [[0xE9], "sub"] none := by
  have hbelow : (noText.seenFrom [[0xE9], "sub"]).realPlace "." = .ok [[0xE9], "sub"] := by cbv
  have hconfig := onePath_noText.resolve_config [[0xE9], "sub"]
  have hroot : Settings.rootFrom noText [[0xE9], "sub"] none = Place.path [[0xE9]] := by
    refine Settings.root_of_parent (Settings.start_of_realPlace hbelow) (by decide) (by decide) ?_ hconfig
      onePath_noText.file
    intro name hname
    refine ⟨.missing, ?_⟩
    simp only [List.mem_cons, List.not_mem_nil, or_false] at hname
    rcases hname with rfl | rfl | rfl | rfl <;> cbv
  have hrooted : (Settings.rooted (noText.seenFrom [[0xE9], "sub"]) (Place.path [[0xE9]]) "x" : RawPath) =
      "/\ufffd/x" := by cbv
  refine onePath_noText.foundInside (by cbv) (by cbv) rfl (onePath_noText.findsProject rfl hroot) hroot hconfig
    hrooted (.inl ⟨.missing, ?_⟩)
  cbv

/-- A project, and a directory with a link to it that is below a closed one. -/
def closedAbove : FileSystem where
  entries := [(["c"], .directory), (["c", "w"], .directory), (["c", "w", "k"], .link "/r"), (["r"], .directory),
    (["r", "tmplint.toml"], .file (configText "x").toUTF8), (["r", "x"], .file "".toUTF8)]
  closed := [["c"]]

theorem onePath_closedAbove : OnePath closedAbove ["r"] "x" where
  wf := by decide
  ne_nil := List.cons_ne_nil _ _
  plain := onePath_fortyLinks.plain
  ne_empty := onePath_fortyLinks.ne_empty
  file := rfl
  readable := rfl
  isOpen := by decide

/-- Where the root is kept as a link, there is no absolute path for what is behind it. -/
theorem foundInside_closedAbove : FoundInside closedAbove ["r"] "x" ["c", "w"] (some "k") := by
  have hdenied : (closedAbove.seenFrom ["c", "w"]).realPlace "k" = .error .denied := by cbv
  have hconfig : (closedAbove.seenFrom ["c", "w"]).resolve (Path.join "k" "tmplint.toml") =
      .ok ["r", "tmplint.toml"] := by cbv
  have hroot : Settings.rootFrom closedAbove ["c", "w"] (some "k") = ("k" : RawPath) := by
    have hstart : Settings.start (closedAbove.seenFrom ["c", "w"]) { projectRoot := some "k" } = "k" :=
      Settings.start_of_error hdenied
    rw [Settings.rootFrom, Settings.root, hstart]
    exact ProjectRoot.detect_of_nearest .start (marked_of_file (by simp) hconfig onePath_closedAbove.file)
      (by simp)
  have houtside : Settings.FindsProject closedAbove ["c", "w"] (some "k") ["r"] := by
    refine ⟨rfl, ?_⟩
    rw [hroot]
    cbv
  have hrooted : (Settings.rooted (closedAbove.seenFrom ["c", "w"]) "k" "x" : RawPath) = "k/x" := by cbv
  refine onePath_closedAbove.foundInside (by cbv) (by cbv) rfl houtside hroot hconfig hrooted
    (.inr ⟨?_, .denied, ?_⟩)
  · cbv
  · cbv

open Settings in
/-- **The paths of a config file mean the same files from every working directory.** Let a directory hold
a config file with paths that are not empty, and let two runs, each from a directory of its own and with a
project root of its own given or none, find the project in that directory. Then both runs have settings,
and find the same real files or fail for the same reason, and it is what the paths of the config file give
when they are read from the directory of the project. Only limits that count from the front of a path can
interfere (`Unhindered`). -/
theorem config_paths_from_everywhere (parser : ConfigParser) {fs : FileSystem} (wf : fs.WellFormed)
    {project : Place} {config : RawPath} {file : ConfigFile}
    (hconfig : ConfigFile.load parser (fs.seenFrom project) "." = .ok (some (config, file)))
    {entries : List String} (hpaths : file.paths = some entries) (hne : ∀ entry ∈ entries, entry ≠ "")
    {here there : Place} {given given' : Option String}
    (hhere : FindsProject fs here given project) (hthere : FindsProject fs there given' project)
    (hfree : Unhindered fs here given project entries) (hfree' : Unhindered fs there given' project entries) :
    ∃ settings settings', resolve parser (fs.seenFrom here) { projectRoot := given } = .ok settings ∧
      resolve parser (fs.seenFrom there) { projectRoot := given' } = .ok settings' ∧
      let realFilesFrom (here : Place) (paths exclude extensions : List String) :=
        Discovery.outcome Discovery.realFiles (discover (fs.seenFrom here) paths exclude extensions)
      realFilesFrom here settings.paths settings.exclude settings.extensions =
          realFilesFrom there settings'.paths settings'.exclude settings'.extensions ∧
        realFilesFrom here settings.paths settings.exclude settings.extensions =
          realFilesFrom project entries (file.exclude.getD []) (file.extensions.getD ["twig"]) := by
  have hbytes : ∀ entry ∈ entries, (entry : RawPath) ≠ [] := by
    intro entry hentry hempty
    exact hne entry hentry (Utf8.encode_injective hempty)
  obtain ⟨settings, hsettings, hfound⟩ := exists_settings wf hconfig hpaths hbytes hhere hfree
  obtain ⟨settings', hsettings', hfound'⟩ := exists_settings wf hconfig hpaths hbytes hthere hfree'
  exact ⟨settings, settings', hsettings, hsettings', hfound.trans hfound'.symm, hfound⟩

open Settings in
/-- From the root of the file system, where the project is given as the root, and from the project itself,
where none is given, the file behind forty links is found. -/
theorem config_paths_from_two_directories :
    FindsProject fortyLinks [] (some "r") ["r"] ∧ FindsProject fortyLinks ["r"] none ["r"] ∧
      ∃ settings settings', resolve .flat (fortyLinks.seenFrom []) { projectRoot := some "r" } = .ok settings ∧
        resolve .flat (fortyLinks.seenFrom ["r"]) { projectRoot := none } = .ok settings' ∧
        Discovery.outcome Discovery.realFiles (discover (fortyLinks.seenFrom []) settings.paths settings.exclude
          settings.extensions) = .ok {("/r/a" : RawPath)} ∧
        Discovery.outcome Discovery.realFiles (discover (fortyLinks.seenFrom ["r"]) settings'.paths
          settings'.exclude settings'.extensions) = .ok {("/r/a" : RawPath)} := by
  have hroot : (fortyLinks.seenFrom []).realPlace (written { projectRoot := some "r" }) = .ok ["r"] := by cbv
  have hpoint : (fortyLinks.seenFrom ["r"]).realPlace (written { projectRoot := none }) = .ok ["r"] :=
    onePath_fortyLinks.realPlace_point
  have hinside := onePath_fortyLinks.inside
  have houtside : FindsProject fortyLinks [] (some "r") ["r"] :=
    onePath_fortyLinks.findsProject rfl (onePath_fortyLinks.rootFrom_of_realPlace hroot)
  have hconfig := load_configText onePath_fortyLinks.plain onePath_fortyLinks.ne_empty onePath_fortyLinks.file
    onePath_fortyLinks.readable onePath_fortyLinks.resolve_config_point
  have hshort : ∀ name ∈ "x" :: ConfigFile.names,
      (Path.join (Place.path ["r"]) name).length ≤ FileSystem.maxPath := by decide
  have htext : Utf8.IsText (Place.path ["r"]) := Utf8.isText_encode "/r"
  obtain ⟨settings, settings', hsettings, hsettings', hsame, hfound⟩ := config_paths_from_everywhere .flat
    onePath_fortyLinks.wf hconfig rfl (by simp) houtside hinside
    (onePath_fortyLinks.unhindered hroot hshort htext) (onePath_fortyLinks.unhindered hpoint hshort htext)
  have hfiles : Discovery.outcome Discovery.realFiles
      (discover (fortyLinks.seenFrom ["r"]) ["x"] [] ["twig"]) = .ok {("/r/a" : RawPath)} := by
    rw [Discovery.outcome_single, Discovery.realFilesAt_seenFrom, resolve_fortyLinks, realPlace_fortyLinks,
      Discovery.realFilesAt_file fortyLinks [] ["twig"] rfl]
    rfl
  have hfirst := hfound.trans hfiles
  exact ⟨houtside, hinside, settings, settings', hsettings, hsettings', hfirst, hsame.symm.trans hfirst⟩

/-- A path behind the root may run through too many links, be too long, be written with a replacement
character or have no absolute path, where the path itself leads to a file from the project. -/
theorem config_paths_from_project_only :
    FoundInside fortyLinks ["r"] "x" [] (some "k/nope") ∧
      FoundInside longPath ["r"] (Discovery.dotted 2046) [] (some "r") ∧
      FoundInside noText [[0xE9]] "x" [[0xE9], "sub"] none ∧
      FoundInside closedAbove ["r"] "x" ["c", "w"] (some "k") :=
  ⟨foundInside_fortyLinks, foundInside_longPath, foundInside_noText, foundInside_closedAbove⟩

end TemplateLint
