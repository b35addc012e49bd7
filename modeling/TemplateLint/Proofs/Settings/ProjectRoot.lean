import TemplateLint.Proofs.Files.Ancestors
import TemplateLint.Proofs.Files.Spelling
import TemplateLint.Proofs.Files.Ways
import TemplateLint.Proofs.Text.Utf8
import TemplateLint.Settings

/-!
# The project root and its config file

The project root is found on the way up from where the search starts: it is the first path there that is
marked, and its config file is the first one of the names that is present in it. That nothing else counts
is a matter of what is looked at. An entry can be absent for two reasons, since it is not there or since
the search ended before it, and taking entries away makes no path lead anywhere. So the search passes by
what it has passed by, stops where it has stopped if the first mark there is kept, and then reads the
same file: the settings depend on the entries on few ways only, that of the project root as it was given,
that of the first mark and that of the working directory (`Decisive`).

Two of them can come to config files that are none of the root's own. The project root that was given can
be the path of a config file, and a mark can be a link.
-/

namespace TemplateLint

open FileSystem

theorem find?_of_subset {α : Type} {p q : α → Bool} {list : List α} (himp : ∀ a, q a = true → p a = true)
    (hfirst : ∀ a, list.find? p = some a → q a = true) : list.find? q = list.find? p := by
  cases hfind : list.find? p with
  | none => exact List.find?_eq_none.2 fun a ha hq => List.find?_eq_none.1 hfind a ha (himp a hq)
  | some a =>
    obtain ⟨-, before, behind, hlist, hbefore⟩ := List.find?_eq_some_iff_append.1 hfind
    refine List.find?_eq_some_iff_append.2 ⟨hfirst a hfind, before, behind, hlist, fun other hother => ?_⟩
    have hp := hbefore other hother
    rw [Bool.not_eq_true'] at hp ⊢
    exact Bool.eq_false_iff.2 fun hq => Bool.eq_false_iff.1 hp (himp other hq)

/-- Of names in a directory, one that is present while those before it are not. -/
def FirstPresent (fs : FileSystem) (directory : RawPath) (among : List String) (name : String) : Prop :=
  fs.isPresent (Path.join directory name) = true ∧ ∃ before behind, among = before ++ name :: behind ∧
    ∀ other ∈ before, ¬ fs.isPresent (Path.join directory other) = true

variable {parser : ConfigParser} {fs fs' : FileSystem} {directory : RawPath} {name : String}
  {among : List String}

theorem firstPresent_iff : FirstPresent fs directory among name ↔
    among.find? (fun name : String => fs.isPresent (Path.join directory name)) = some name := by
  rw [FirstPresent, List.find?_eq_some_iff_append]
  simp only [Bool.not_eq_true, Bool.not_eq_true']

theorem FirstPresent.append (h : FirstPresent fs directory among name) (more : List String) :
    FirstPresent fs directory (among ++ more) name := by
  obtain ⟨hpresent, before, behind, rfl, hbefore⟩ := h
  exact ⟨hpresent, before, behind ++ more, by simp, hbefore⟩

theorem FirstPresent.mem (h : FirstPresent fs directory among name) : name ∈ among := by
  obtain ⟨-, before, behind, rfl, -⟩ := h
  exact List.mem_append_right before List.mem_cons_self

theorem exists_firstPresent
    (h : among.any (fun name => fs.isPresent (Path.join directory name)) = true) :
    ∃ name, FirstPresent fs directory among name := by
  obtain ⟨name, hname⟩ := Option.isSome_iff_exists.1 (List.find?_isSome.2 (List.any_eq_true.1 h))
  exact ⟨name, firstPresent_iff.2 hname⟩

namespace ProjectRoot

/-- A directory with a mark in it. -/
def Marked (fs : FileSystem) (directory : RawPath) : Prop :=
  ∃ name ∈ ([".git", "tmplint.toml", "tmplint.yaml", "tmplint.yml"] : List String),
    fs.isPresent (Path.join directory name) = true

theorem isMarked_iff (directory : RawPath) : isMarked fs directory = true ↔ Marked fs directory := by
  rw [isMarked, List.any_eq_true, Marked]
  simp only [ConfigFile.names, ConfigFile.candidates, List.map_cons, List.map_nil, List.mem_append,
    List.mem_cons, List.not_mem_nil, or_false]
  constructor
  · rintro ⟨name, hname, hpresent⟩
    exact ⟨name, by tauto, hpresent⟩
  · rintro ⟨name, hname, hpresent⟩
    exact ⟨name, by tauto, hpresent⟩

/-- The search ends at the first marked path on the way up, or where it started. -/
theorem detect_cases (fs : FileSystem) (start : RawPath) :
    (∃ n, Path.Climbs start n (detect fs start) ∧ Marked fs (detect fs start) ∧
        ∀ k < n, ∀ path, Path.Climbs start k path → ¬ Marked fs path) ∨
      detect fs start = start ∧ ∀ n path, Path.Climbs start n path → ¬ Marked fs path := by
  cases hfind : (Path.ancestors start).find? (isMarked fs) with
  | none =>
    refine .inr ⟨by rw [detect, hfind]; rfl, fun n path hclimbs hmarked => ?_⟩
    have hmem := List.mem_of_getElem? ((Path.getElem?_ancestors start n path).2 hclimbs)
    exact List.find?_eq_none.1 hfind path hmem ((isMarked_iff path).2 hmarked)
  | some root =>
    have hdetect : detect fs start = root := by rw [detect, hfind]; rfl
    obtain ⟨hmarked, n, hn, hroot, hbefore⟩ := List.find?_eq_some_iff_getElem.1 hfind
    rw [hdetect]
    refine .inl ⟨n, ?_, (isMarked_iff root).1 hmarked, fun k hk path hclimbs hpath => ?_⟩
    · exact (Path.getElem?_ancestors start n root).1 (List.getElem?_eq_some_iff.2 ⟨hn, hroot⟩)
    · obtain ⟨hlt, hat⟩ := List.getElem?_eq_some_iff.1 ((Path.getElem?_ancestors start k path).2 hclimbs)
      have hunmarked := hbefore k hk
      rw [hat, Bool.not_eq_true'] at hunmarked
      exact Bool.eq_false_iff.1 hunmarked ((isMarked_iff path).2 hpath)

theorem exists_climbs (fs : FileSystem) (start : RawPath) : ∃ n, Path.Climbs start n (detect fs start) := by
  rcases detect_cases fs start with ⟨n, hclimbs, -⟩ | ⟨hstart, -⟩
  · exact ⟨n, hclimbs⟩
  · exact ⟨0, hstart.symm ▸ .start⟩

theorem detect_of_nearest {start : RawPath} {n : Nat} {root : RawPath} (hclimbs : Path.Climbs start n root)
    (hmarked : Marked fs root) (hbefore : ∀ k < n, ∀ path, Path.Climbs start k path → ¬ Marked fs path) :
    detect fs start = root := by
  rcases detect_cases fs start with ⟨m, hm, hmarked', hbefore'⟩ | ⟨-, hnone⟩
  · rcases Nat.lt_trichotomy n m with hlt | rfl | hlt
    · exact absurd hmarked (hbefore' n hlt root hclimbs)
    · exact hm.unique hclimbs
    · exact absurd hmarked' (hbefore m hlt _ hm)
  · exact absurd hmarked (hnone n root hclimbs)

end ProjectRoot

namespace ConfigFile

/-- The names of config files and the other mark of a project root, in the order of the search. -/
def marks : List String := names ++ [".git"]

theorem names_relative : ∀ name ∈ names, (name : RawPath) ≠ [] ∧ Path.isAbsolute name = false := by
  decide

/-- The first of the candidates that is present in a directory. -/
def candidate? (fs : FileSystem) (directory : RawPath) : Option (String × Format) :=
  candidates.find? fun (name, _) => fs.isPresent (Path.join directory name)

theorem find?_names (fs : FileSystem) (directory : RawPath) :
    names.find? (fun name : String => fs.isPresent (Path.join directory name)) =
      (candidate? fs directory).map Prod.fst :=
  List.find?_map

theorem load_of_no_candidate (h : candidate? fs directory = none) : load parser fs directory = .ok none := by
  unfold candidate? at h
  rw [load, h]

theorem load_of_candidate {format : Format} (h : candidate? fs directory = some (name, format)) :
    load parser fs directory =
      match read parser fs (Path.join directory name) format with
      | .ok file => .ok (some (Path.join directory name, file))
      | .error fault => .error (.invalidConfigFile (Path.join directory name) fault.message) := by
  unfold candidate? at h
  cases hread : read parser fs (Path.join directory name) format <;> simp only [load, h, hread]

theorem load_cases (parser : ConfigParser) (fs : FileSystem) (directory : RawPath) :
    (load parser fs directory = .ok none ∧ ∀ name ∈ names, ¬ fs.isPresent (Path.join directory name) = true) ∨
      ∃ name, FirstPresent fs directory names name ∧
        ((∃ file, load parser fs directory = .ok (some (Path.join directory name, file))) ∨
          ∃ reason, load parser fs directory =
            .error (.invalidConfigFile (Path.join directory name) reason)) := by
  have hnames := find?_names fs directory
  cases hcandidate : candidate? fs directory with
  | none =>
    refine .inl ⟨load_of_no_candidate hcandidate, fun name hname => ?_⟩
    rw [hcandidate] at hnames
    exact List.find?_eq_none.1 hnames name hname
  | some candidate =>
    obtain ⟨name, format⟩ := candidate
    rw [hcandidate] at hnames
    refine .inr ⟨name, firstPresent_iff.2 hnames, ?_⟩
    rw [load_of_candidate hcandidate]
    cases read parser fs (Path.join directory name) format with
    | ok file => exact .inl ⟨file, rfl⟩
    | error fault => exact .inr ⟨fault.message, rfl⟩

/-- Where the first mark of a directory is kept, its config file is the same. -/
theorem load_of_kept (parser : ConfigParser) (reduction : Reduction fs fs')
    (hkept : ∀ name, FirstPresent fs directory marks name → ∀ place,
      OnWay fs (Path.join directory name) place → Keeps fs fs' place) :
    load parser fs' directory = load parser fs directory := by
  have hfirst {name : String} (h : FirstPresent fs directory names name) :
      ∃ place entry, fs.resolve (Path.join directory name) = .ok place ∧ fs.entry? place = some entry ∧
        fs'.resolve (Path.join directory name) = .ok place ∧ Keeps fs fs' place := by
    obtain ⟨place, entry, hplace, hentry⟩ := isPresent_iff.1 h.1
    obtain ⟨hplace', hkeeps⟩ := resolve_of_kept reduction (hkept name (h.append _)) hplace
    exact ⟨place, entry, hplace, hentry, hplace', hkeeps⟩
  have hnames := find?_names fs directory
  have hsame : candidate? fs' directory = candidate? fs directory := by
    refine find?_of_subset (fun _ h => reduction.isPresent h) fun candidate hcandidate => ?_
    have hfound : candidate? fs directory = some candidate := hcandidate
    rw [hfound] at hnames
    obtain ⟨place, entry, -, hentry, hplace', hkeeps, -⟩ := hfirst (firstPresent_iff.2 hnames)
    exact isPresent_iff.2 ⟨place, entry, hplace', hkeeps.trans hentry⟩
  cases hcandidate : candidate? fs directory with
  | none => rw [load_of_no_candidate hcandidate, load_of_no_candidate (hsame.trans hcandidate)]
  | some candidate =>
    obtain ⟨name, format⟩ := candidate
    rw [hcandidate] at hnames
    obtain ⟨place, entry, hplace, -, hplace', hentry, hrefusal⟩ := hfirst (firstPresent_iff.2 hnames)
    have hread : fs'.read (Path.join directory name) = fs.read (Path.join directory name) := by
      simp only [FileSystem.read, hplace, hplace', hentry, hrefusal, bind, Except.bind]
    rw [load_of_candidate (hsame.trans hcandidate), load_of_candidate hcandidate, read, read, hread]

end ConfigFile

namespace Settings

variable {overrides : Overrides}

/-- The project root as it is given. -/
def written (overrides : Overrides) : RawPath := overrides.projectRoot.getD "."

/-- The root of the project that the settings are for. -/
def root (fs : FileSystem) (overrides : Overrides) : RawPath :=
  ProjectRoot.detect fs (start fs overrides)

/-- A place that is on the way of the project root as it is given, if there is an absolute path for that,
of the first mark of the root, or of the working directory. -/
inductive Decisive (fs : FileSystem) (overrides : Overrides) (place : Place) : Prop where
  | given {target : Place} (leads : fs.realPlace (written overrides) = .ok target)
      (onWay : OnWay fs (written overrides) place)
  | mark {name : String} (first : FirstPresent fs (root fs overrides) ConfigFile.marks name)
      (onWay : OnWay fs (Path.join (root fs overrides) name) place)
  | here {target : Place} (leads : fs.realPlace fs.workingDirectory.path = .ok target)
      (isDirectory : fs.isDirectoryAt target = true) (onWay : OnWay fs fs.workingDirectory.path place)

theorem decisive_file_iff {place : Place} {content : ByteArray}
    (hfile : fs.entry? place = some (.file content)) :
    Decisive fs overrides place ↔ fs.realPlace (written overrides) = .ok place ∨
      ∃ name : String, FirstPresent fs (root fs overrides) ConfigFile.marks name ∧
        fs.resolve (Path.join (root fs overrides) name) = .ok place := by
  constructor
  · intro h
    cases h with
    | given leads onWay =>
      obtain rfl := (onWay_file_iff_of_realPlace leads hfile).1 onWay
      exact .inl leads
    | @mark name first onWay =>
      obtain ⟨target, entry, htarget, -⟩ := isPresent_iff.1 first.1
      obtain rfl := (onWay_file_iff htarget hfile).1 onWay
      exact .inr ⟨name, first, htarget⟩
    | here leads isDirectory onWay =>
      obtain rfl := (onWay_file_iff_of_realPlace leads hfile).1 onWay
      exact absurd isDirectory (not_isDirectoryAt_of_file hfile)
  · rintro (hgiven | ⟨name, hfirst, hmark⟩)
    · exact .given hgiven ((onWay_file_iff_of_realPlace hgiven hfile).2 rfl)
    · exact .mark hfirst ((onWay_file_iff hmark hfile).2 rfl)

theorem start_of_realPlace {place : Place} (h : fs.realPlace (written overrides) = .ok place) :
    start fs overrides = place.path := by
  rw [written] at h
  simp only [start, canonical, h, Except.map]

theorem start_of_error {e : FileError} (h : fs.realPlace (written overrides) = .error e) :
    start fs overrides = written overrides := by
  rw [written] at h ⊢
  simp only [start, canonical, h, Except.map]

theorem isHere_iff {root : RawPath} : isHere fs root = true ↔
    ∃ target, fs.realPlace fs.workingDirectory.path = .ok target ∧ Path.same target.path root = true := by
  rw [isHere, canonical]
  cases fs.realPlace fs.workingDirectory.path with
  | error e => simp [Except.map]
  | ok target => simp [Except.map]

theorem resolve_eq (parser : ConfigParser) (fs : FileSystem) (overrides : Overrides) :
    resolve parser fs overrides = (ConfigFile.load parser fs (root fs overrides)).map fun
      | none => { merge overrides {} with projectRoot := root fs overrides }
      | some (path, file) =>
        { merge overrides { file with paths := file.paths.map (List.map (rooted fs (root fs overrides))) }
          with projectRoot := root fs overrides, configFile := some path } := by
  rw [resolve]
  show (ConfigFile.load parser fs (root fs overrides) >>= _) = _
  rcases ConfigFile.load parser fs (root fs overrides) with e | _ | ⟨path, file⟩ <;> rfl

/-- Settings name the first config file of the root, and only that one can be a reason to fail. -/
theorem resolve_cases (parser : ConfigParser) (fs : FileSystem) (overrides : Overrides) :
    (∃ settings, resolve parser fs overrides = .ok settings ∧ settings.projectRoot = root fs overrides ∧
      ((∃ name : String, FirstPresent fs (root fs overrides) ConfigFile.names name ∧
          settings.configFile = some (Path.join (root fs overrides) name)) ∨
        settings.configFile = none ∧ ∀ name, ¬ FirstPresent fs (root fs overrides) ConfigFile.names name)) ∨
    ∃ (name : String) (reason : String), FirstPresent fs (root fs overrides) ConfigFile.names name ∧
      resolve parser fs overrides = .error (.invalidConfigFile (Path.join (root fs overrides) name) reason) := by
  rw [resolve_eq]
  rcases ConfigFile.load_cases parser fs (root fs overrides) with
    ⟨hnone, habsent⟩ | ⟨name, hfirst, ⟨file, hfile⟩ | ⟨reason, hreason⟩⟩
  · rw [hnone]
    refine .inl ⟨_, rfl, rfl, .inr ⟨rfl, ?_⟩⟩
    intro name hfirst
    exact habsent name hfirst.mem hfirst.1
  · rw [hfile]
    exact .inl ⟨_, rfl, rfl, .inl ⟨name, hfirst, rfl⟩⟩
  · rw [hreason]
    exact .inr ⟨name, reason, hfirst, rfl⟩

section Reduced

variable (reduction : Reduction fs fs') (hkept : ∀ place, Decisive fs overrides place → Keeps fs fs' place)
include reduction hkept

theorem start_of_kept : start fs' overrides = start fs overrides := by
  cases hplace : fs.realPlace (written overrides) with
  | ok place =>
    have hplace' := realPlace_of_kept reduction (fun other honWay => hkept other (.given hplace honWay)) hplace
    rw [start_of_realPlace hplace'.1, start_of_realPlace hplace]
  | error e =>
    cases hplace' : fs'.realPlace (written overrides) with
    | ok place => cases hplace.symm.trans (reduction.realPlace hplace')
    | error e' => rw [start_of_error hplace', start_of_error hplace]

theorem root_of_kept : root fs' overrides = root fs overrides := by
  rw [root, start_of_kept reduction hkept, root, ProjectRoot.detect, ProjectRoot.detect,
    find?_of_subset (p := ProjectRoot.isMarked fs)]
  · intro directory hmarked
    obtain ⟨name, hname, hpresent⟩ := List.any_eq_true.1 hmarked
    exact List.any_eq_true.2 ⟨name, hname, reduction.isPresent hpresent⟩
  · intro directory hfind
    obtain rfl : root fs overrides = directory := by
      rw [root, ProjectRoot.detect, hfind]
      rfl
    have hmarked : ProjectRoot.isMarked fs (root fs overrides) = true := List.find?_some hfind
    obtain ⟨name, hfirst⟩ := exists_firstPresent hmarked
    obtain ⟨place, entry, hplace, hentry⟩ := isPresent_iff.1 hfirst.1
    obtain ⟨hplace', hentry', -⟩ := FileSystem.resolve_of_kept reduction
      (fun other honWay => hkept other (.mark hfirst honWay)) hplace
    refine List.any_eq_true.2 ⟨name, hfirst.mem, ?_⟩
    exact isPresent_iff.2 ⟨place, entry, hplace', hentry'.trans hentry⟩

/-- With something in it, the root is the working directory or not as it was. -/
theorem isHere_of_kept {root name : RawPath} (hne : name ≠ []) (hrelative : Path.isAbsolute name = false)
    (hpresent : fs.isPresent (Path.join root name) = true) : isHere fs' root = isHere fs root := by
  rw [Bool.eq_iff_iff, isHere_iff, isHere_iff, reduction.workingDirectory]
  constructor
  · intro h
    obtain ⟨target, htarget, hsame⟩ := h
    exact ⟨target, reduction.realPlace htarget, hsame⟩
  · intro h
    obtain ⟨target, htarget, hsame⟩ := h
    have hreached := reached_of_realPlace htarget (Place.isAbsolute_path _)
    have hdirectory := hreached.isDirectoryAt_of_same hsame hrelative hne hpresent
    have htarget' := realPlace_of_kept reduction
      (fun other honWay => hkept other (.here htarget hdirectory honWay)) htarget
    exact ⟨target, htarget'.1, hsame⟩

/-- The settings depend on what is on these ways and on nothing else. -/
theorem resolve_of_kept : resolve parser fs' overrides = resolve parser fs overrides := by
  have hload := ConfigFile.load_of_kept parser reduction fun name hfirst place honWay =>
    hkept place (.mark hfirst honWay)
  rw [resolve_eq, resolve_eq, root_of_kept reduction hkept, hload]
  rcases ConfigFile.load_cases parser fs (root fs overrides) with ⟨hnone, -⟩ | ⟨name, hfirst, -⟩
  · rw [hnone]
    rfl
  · obtain ⟨hne, hrelative⟩ := ConfigFile.names_relative name hfirst.mem
    have hhere := isHere_of_kept reduction hkept hne hrelative hfirst.1
    have hrooted : rooted fs' (root fs overrides) = rooted fs (root fs overrides) := by
      funext path
      rw [rooted, rooted, hhere]
    rw [hrooted]

end Reduced

end Settings

/-! ### Trees with a config file -/

section Trees

variable {overrides : Overrides} {place : Place} {content : ByteArray}

theorem resolve_of_steps {path : RawPath} {ways : List RawPath} (hwd : fs.workingDirectory = [])
    (hne : path ≠ []) (hshort : path.length ≤ maxPath) (hsteps : steps path = ways) :
    fs.resolve path = fs.follow .stepwise maxLinks [] ways := by
  rw [FileSystem.resolve, if_neg hne, if_neg (Nat.not_lt.2 hshort), origin, hwd, ite_self, hsteps]

theorem marked_of_file (hname : name ∈ ([".git", "tmplint.toml", "tmplint.yaml", "tmplint.yml"] : List String))
    (hplace : fs.resolve (Path.join directory name) = .ok place)
    (hfile : fs.entry? place = some (.file content)) : ProjectRoot.Marked fs directory :=
  ⟨name, hname, isPresent_iff.2 ⟨place, .file content, hplace, hfile⟩⟩

theorem not_marked_of_errors
    (h : ∀ name ∈ ([".git", "tmplint.toml", "tmplint.yaml", "tmplint.yml"] : List String),
      ∃ e, fs.resolve (Path.join directory name) = .error e) : ¬ ProjectRoot.Marked fs directory := by
  rintro ⟨name, hname, hpresent⟩
  obtain ⟨place, entry, hplace, -⟩ := isPresent_iff.1 hpresent
  obtain ⟨e, he⟩ := h name hname
  cases he.symm.trans hplace

namespace ConfigFile

variable (hplace : fs.resolve (Path.join directory "tmplint.toml") = .ok place)
include hplace

theorem load_of_toml (hfile : fs.entry? place = some (.file content)) :
    load parser fs directory =
      match read parser fs (Path.join directory "tmplint.toml") .toml with
      | .ok file => .ok (some (Path.join directory "tmplint.toml", file))
      | .error fault => .error (.invalidConfigFile (Path.join directory "tmplint.toml") fault.message) :=
  load_of_candidate (List.find?_cons_of_pos (isPresent_iff.2 ⟨place, .file content, hplace, hfile⟩))

theorem read_of_text {text : String} (hfile : fs.entry? place = some (.file text.toUTF8))
    (hreadable : fs.refusal? place = none) :
    read parser fs (Path.join directory "tmplint.toml") .toml = (parser .toml text).mapError .rejected := by
  rw [read, read_of_resolve hplace hfile hreadable]
  simp only [Utf8.decode?_toUTF8]

end ConfigFile

theorem Settings.resolve_of_empty_toml {root : RawPath} (hroot : Settings.root fs overrides = root)
    (hplace : fs.resolve (Path.join root "tmplint.toml") = .ok place)
    (hfile : fs.entry? place = some (.file "".toUTF8)) (hreadable : fs.refusal? place = none) :
    Settings.resolve .flat fs overrides = .ok { merge overrides {} with
      projectRoot := root, configFile := some (Path.join root "tmplint.toml") } := by
  have hread : ConfigFile.read .flat fs (Path.join root "tmplint.toml") .toml = .ok {} := by
    rw [ConfigFile.read_of_text hplace hfile hreadable]
    cbv
  rw [resolve_eq, hroot, ConfigFile.load_of_toml hplace hfile, hread]
  rfl

/-- A directory that is given and holds a config file is the root. -/
theorem Settings.root_of_realPlace {project : Place} (hproject : fs.realPlace (written overrides) = .ok project)
    (hpath : project.path = directory) (hplace : fs.resolve (Path.join directory "tmplint.toml") = .ok place)
    (hfile : fs.entry? place = some (.file content)) : Settings.root fs overrides = directory := by
  rw [root, start_of_realPlace hproject, hpath]
  exact ProjectRoot.detect_of_nearest .start (marked_of_file (by simp) hplace hfile) (by simp)

/-- Where the project root that is given cannot be a directory, the path above it can be the root. -/
theorem Settings.root_of_parent {first parent : RawPath} (hstart : start fs overrides = first)
    (hparent : Path.parent? first = some parent) (hne : parent ≠ [])
    (herrors : ∀ name ∈ ([".git", "tmplint.toml", "tmplint.yaml", "tmplint.yml"] : List String),
      ∃ e, fs.resolve (Path.join first name) = .error e)
    (hplace : fs.resolve (Path.join parent "tmplint.toml") = .ok place)
    (hfile : fs.entry? place = some (.file content)) : Settings.root fs overrides = parent := by
  rw [root, hstart]
  refine ProjectRoot.detect_of_nearest (.parent .start hparent hne) (marked_of_file (by simp) hplace hfile) ?_
  intro k hk path hclimbs
  obtain rfl : k = 0 := by omega
  cases hclimbs
  exact not_marked_of_errors herrors

end Trees

open Settings in
/-- **The nearest marked directory is the project root, and only its first config file counts.** Going up
from a path takes off one step after the other until one is left. The project root is the first path on
this way that is marked, or the one where the way begins if none is. The config file is the first one of
the names that is present in the root, and only that one can be a reason to fail.

When other entries are taken away, or files rewritten or made unreadable, all this stays the same: what
has to be kept is on the way of the project root as it was given, of the first mark of the root or of the
working directory. Of files these are the one that was given and the one that the first mark leads to. -/
theorem resolve_nearest_project (parser : ConfigParser) (fs : FileSystem) :
    (∀ start,
      (∀ n path, Path.Climbs start n path →
        Path.components path = (Path.components start).take ((Path.components start).length - n)) ∧
      (∀ n, (∃ path, Path.Climbs start n path) ↔ n = 0 ∨ n < (Path.components start).length) ∧
      let root := ProjectRoot.detect fs start
      (∃ n, Path.Climbs start n root ∧ ProjectRoot.Marked fs root ∧
          ∀ k < n, ∀ path, Path.Climbs start k path → ¬ ProjectRoot.Marked fs path) ∨
        root = start ∧ ∀ n path, Path.Climbs start n path → ¬ ProjectRoot.Marked fs path) ∧
    ∀ overrides,
      let root := Settings.root fs overrides
      let IsConfigFile := FirstPresent fs root ["tmplint.toml", "tmplint.yaml", "tmplint.yml"]
      (∀ settings, resolve parser fs overrides = .ok settings → settings.projectRoot = root ∧
        ((∃ name : String, IsConfigFile name ∧ settings.configFile = some (Path.join root name)) ∨
          settings.configFile = none ∧ ∀ name, ¬ IsConfigFile name)) ∧
      (∀ e, resolve parser fs overrides = .error e →
        ∃ (name : String) (reason : String), IsConfigFile name ∧
          e = .invalidConfigFile (Path.join root name) reason) ∧
      (∀ fs', Reduction fs fs' → (∀ place, Decisive fs overrides place → Keeps fs fs' place) →
        resolve parser fs' overrides = resolve parser fs overrides) ∧
      ∀ place content, fs.entry? place = some (.file content) → (Decisive fs overrides place ↔
        fs.realPlace (written overrides) = .ok place ∨
          ∃ mark : String, FirstPresent fs root ConfigFile.marks mark ∧
            fs.resolve (Path.join root mark) = .ok place) := by
  refine ⟨fun start => ?_, fun overrides => ?_⟩
  · exact ⟨fun n path hclimbs => hclimbs.components_eq, Path.exists_climbs_iff start,
      ProjectRoot.detect_cases fs start⟩
  intro root IsConfigFile
  refine ⟨fun settings hsettings => ?_, fun e he => ?_, ?_, ?_⟩
  · rcases resolve_cases parser fs overrides with ⟨found, hfound, hroot, hconfig⟩ | ⟨_, _, -, herror⟩
    · cases hsettings.symm.trans hfound
      exact ⟨hroot, hconfig⟩
    · cases hsettings.symm.trans herror
  · rcases resolve_cases parser fs overrides with ⟨_, hfound, -⟩ | ⟨name, reason, hfirst, herror⟩
    · cases he.symm.trans hfound
    · cases he.symm.trans herror
      exact ⟨name, reason, hfirst, rfl⟩
  · exact fun fs' reduction hkept => resolve_of_kept reduction hkept
  · exact fun place content hfile => decisive_file_iff hfile

open Settings in
/-- Config files above the root, below it and behind its config file can be taken away. -/
theorem resolve_nearest_project_other_files :
    let broken : Entry := .file "=".toUTF8
    let kept : List (Place × Entry) := [(["a"], .directory), (["a", "b"], .directory),
      (["a", "tmplint.toml"], .file "".toUTF8)]
    let others : List (Place × Entry) := [(["tmplint.toml"], broken), (["a", "tmplint.yaml"], broken),
      (["a", "b", "tmplint.yml"], broken)]
    let fs : FileSystem := { entries := kept ++ others }
    let given : Overrides := { projectRoot := some "a" }
    Reduction fs { entries := kept } ∧ (∀ other ∈ others, ¬ Decisive fs given other.1) ∧
      resolve .flat { entries := kept } given = resolve .flat fs given ∧
      resolve .flat fs given = .ok { projectRoot := "/a", configFile := some ("/a/tmplint.toml" : RawPath) } := by
  intro broken kept others fs given
  have hreduction : Reduction fs { entries := kept } := .of_append kept others
  have hgiven : fs.realPlace (written given) = .ok ["a"] := by cbv
  have hmark : fs.resolve (Path.join "/a" "tmplint.toml") = .ok ["a", "tmplint.toml"] := by
    have hsteps : steps (Path.join "/a" "tmplint.toml") = (["a", "tmplint.toml"] : List RawPath) := by decide
    rw [resolve_of_steps rfl (by decide) (by decide) hsteps]
    cbv
  have hfile : fs.entry? ["a", "tmplint.toml"] = some (.file "".toUTF8) := rfl
  have hroot : Settings.root fs given = ("/a" : RawPath) := root_of_realPlace hgiven rfl hmark hfile
  obtain ⟨-, hsettings⟩ := resolve_nearest_project .flat fs
  obtain ⟨-, -, hsame, hfiles⟩ := hsettings given
  rw [hroot] at hfiles
  have hothers : ∀ other ∈ others, ¬ Decisive fs given other.1 := by
    intro other hother hdecisive
    have hbroken : fs.entry? other.1 = some broken ∧ (["a"] : Place) ≠ other.1 ∧
        (["a", "tmplint.toml"] : Place) ≠ other.1 := by
      simp only [others, List.mem_cons, List.not_mem_nil, or_false] at hother
      rcases hother with rfl | rfl | rfl <;> exact ⟨rfl, by decide, by decide⟩
    rcases (hfiles _ _ hbroken.1).1 hdecisive with hplace | ⟨mark, hfirst, hplace⟩
    · exact hbroken.2.1 (Except.ok.inj (hgiven.symm.trans hplace))
    · have hfind : ConfigFile.marks.find? (fun name : String => fs.isPresent (Path.join "/a" name)) =
          some "tmplint.toml" :=
        List.find?_cons_of_pos (isPresent_iff.2 ⟨_, _, hmark, hfile⟩)
      cases (firstPresent_iff.1 hfirst).symm.trans hfind
      exact hbroken.2.2 (Except.ok.inj (hmark.symm.trans hplace))
  refine ⟨hreduction, hothers, hsame _ hreduction fun place hplace => ?_, ?_⟩
  · refine keeps_append_of_not_mem fun hmem => ?_
    obtain ⟨other, hother, rfl⟩ := List.mem_map.1 hmem
    exact hothers other hother hplace
  · exact resolve_of_empty_toml hroot hmark hfile rfl

/-- A project whose config file is a link to one below. -/
def linkedProject : FileSystem where
  entries := [(["r"], .directory), (["r", "sub"], .directory), (["r", "sub", "tmplint.toml"], .file "=".toUTF8),
    (["r", "tmplint.toml"], .link "sub/tmplint.toml")]

theorem resolve_linkedProject : linkedProject.resolve (Path.join "/r" "tmplint.toml") =
    .ok ["r", "sub", "tmplint.toml"] := by
  have hsteps : steps (Path.join "/r" "tmplint.toml") = (["r", "tmplint.toml"] : List RawPath) := by decide
  rw [resolve_of_steps rfl (by decide) (by decide) hsteps]
  cbv

open Settings in
/-- A config file can be what was given as the project root. Then the root is written as the path that it
leads to; without that file, it is written as it was given. And the first mark can be a link to a config
file below the root, which is read and can be broken. -/
theorem resolve_given_config_file :
    let tree (others : List (Place × Entry)) : FileSystem :=
      { entries := (["r"], .directory) :: (["r", "tmplint.toml"], .file "".toUTF8) :: others }
    let given : Overrides := { projectRoot := some "r/tmplint.yaml" }
    resolve .flat (tree [(["r", "tmplint.yaml"], .file "".toUTF8)]) given =
        .ok { projectRoot := "/r", configFile := some ("/r/tmplint.toml" : RawPath) } ∧
      resolve .flat (tree []) given =
        .ok { projectRoot := "r", configFile := some ("r/tmplint.toml" : RawPath) } ∧
      linkedProject.entry? ["r", "sub", "tmplint.toml"] = some (.file "=".toUTF8) ∧
      ∃ reason, resolve .flat linkedProject { projectRoot := some "r" } =
        .error (.invalidConfigFile "/r/tmplint.toml" reason) := by
  intro tree given
  have hinside : ∀ directory ∈ (["/r", "r"] : List RawPath), Path.join directory "tmplint.toml" ≠ [] ∧
      (Path.join directory "tmplint.toml").length ≤ maxPath ∧
      steps (Path.join directory "tmplint.toml") = (["r", "tmplint.toml"] : List RawPath) := by decide
  have hbehind : ∀ first ∈ (["/r/tmplint.yaml", "r/tmplint.yaml"] : List RawPath),
      ∀ name ∈ ([".git", "tmplint.toml", "tmplint.yaml", "tmplint.yml"] : List String),
        Path.join first name ≠ [] ∧ (Path.join first name).length ≤ maxPath ∧
          steps (Path.join first name) = (["r", "tmplint.yaml", name] : List RawPath) := by decide
  have hresolve (others : List (Place × Entry)) {first parent : RawPath}
      (hstart : start (tree others) given = first) (hparent : Path.parent? first = some parent)
      (hfirst : first ∈ (["/r/tmplint.yaml", "r/tmplint.yaml"] : List RawPath))
      (hdirectory : parent ∈ (["/r", "r"] : List RawPath)) (hne : parent ≠ [])
      (herror : ∀ name : RawPath, ∃ e,
        (tree others).follow .stepwise maxLinks [] ["r", "tmplint.yaml", name] = .error e) :
      resolve .flat (tree others) given =
        .ok { projectRoot := parent, configFile := some (Path.join parent "tmplint.toml") } := by
    have hplace : (tree others).resolve (Path.join parent "tmplint.toml") = .ok ["r", "tmplint.toml"] := by
      obtain ⟨hsome, hshort, hsteps⟩ := hinside parent hdirectory
      rw [resolve_of_steps rfl hsome hshort hsteps]
      cbv
    refine resolve_of_empty_toml (root_of_parent hstart hparent hne (fun name hname => ?_) hplace rfl) hplace rfl
      rfl
    obtain ⟨hsome, hshort, hsteps⟩ := hbehind first hfirst name hname
    rw [resolve_of_steps rfl hsome hshort hsteps]
    exact herror name
  refine ⟨?_, ?_, rfl, ?_⟩
  · have hfound : (tree [(["r", "tmplint.yaml"], .file "".toUTF8)]).realPlace (written given) =
        .ok ["r", "tmplint.yaml"] := by cbv
    have hstart : start (tree [(["r", "tmplint.yaml"], .file "".toUTF8)]) given = "/r/tmplint.yaml" :=
      (start_of_realPlace hfound).trans rfl
    exact hresolve _ hstart (by decide) (by simp) (by simp) (by decide) fun name => ⟨.notDirectory, by cbv⟩
  · have hmissing : (tree []).realPlace (written given) = .error .missing := by cbv
    have hstart : start (tree []) given = "r/tmplint.yaml" := start_of_error hmissing
    exact hresolve [] hstart (by decide) (by simp) (by simp) (by decide) fun name => ⟨.missing, by cbv⟩
  · have hfile : linkedProject.entry? ["r", "sub", "tmplint.toml"] = some (.file "=".toUTF8) := rfl
    have hfound : linkedProject.realPlace (written { projectRoot := some "r" }) = .ok ["r"] := by cbv
    have hroot : root linkedProject { projectRoot := some "r" } = ("/r" : RawPath) :=
      root_of_realPlace hfound rfl resolve_linkedProject hfile
    have hread : ConfigFile.read .flat linkedProject (Path.join "/r" "tmplint.toml") .toml =
        .error (.rejected DocumentFault.malformed.message) := by
      have hparse : ConfigParser.flat .toml "=" = .error DocumentFault.malformed.message := by decide +kernel
      rw [ConfigFile.read_of_text resolve_linkedProject hfile rfl, hparse]
      rfl
    refine ⟨DocumentFault.malformed.message, ?_⟩
    rw [resolve_eq, hroot, ConfigFile.load_of_toml resolve_linkedProject hfile, hread]
    rfl

end TemplateLint
