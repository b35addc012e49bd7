import TemplateLint.Proofs.Files.Grouping
import TemplateLint.Proofs.Files.Spelling

/-!
# Searching from another working directory

The working directory is where relative paths start and nothing else. A search goes down from the root
along absolute paths, so once it is known what a request leads to, the real files that are found for it
are the same from every working directory (`realFilesAt`). The files of several requests are those of each
of them, and a failure is that of the first one that fails (`discover_realFiles`).

How often a path may run through links is counted from its start. A path in two parts is followed from
where its front leads, with as many links less as the front has (`Reaches.follow_append`), and that makes
a difference only if the links run out (`follow_of_more_links`).
-/

namespace TemplateLint

namespace FileSystem

/-- The file system as it is seen from a place. -/
def seenFrom (fs : FileSystem) (here : Place) : FileSystem := { fs with workingDirectory := here }

variable (fs : FileSystem) (wd : Place)

@[simp]
theorem entry?_seenFrom (place : Place) : FileSystem.entry? (fs.seenFrom wd) place = fs.entry? place := rfl

@[simp]
theorem barrier?_seenFrom (manner : Manner) (here : Place) (step : RawPath) :
    (fs.seenFrom wd).barrier? manner here step = fs.barrier? manner here step := rfl

@[simp]
theorem workingDirectory_seenFrom : (fs.seenFrom wd).workingDirectory = wd := rfl

/-! ### Absolute paths -/

@[simp]
theorem follow_seenFrom (manner : Manner) (links : Nat) (here : Place) (ways : List RawPath) :
    (fs.seenFrom wd).follow manner links here ways = fs.follow manner links here ways := by
  fun_induction follow fs manner links here ways <;> rw [follow] <;> simp_all

section Absolute

variable {path : RawPath} (h : Path.isAbsolute path = true)
include h

theorem resolve_seenFrom : (fs.seenFrom wd).resolve path = fs.resolve path := by
  rw [resolve, resolve, follow_seenFrom, origin, origin, if_pos h, if_pos h]

theorem realPlace_seenFrom : (fs.seenFrom wd).realPlace path = fs.realPlace path := by
  rw [realPlace, realPlace, follow_seenFrom, origin, origin, if_pos h, if_pos h]

theorem target?_seenFrom : (fs.seenFrom wd).target? path = fs.target? path := by
  rw [target?, target?, resolve_seenFrom fs wd h]
  rfl

theorem isDirectory_seenFrom : (fs.seenFrom wd).isDirectory path = fs.isDirectory path := by
  rw [isDirectory, isDirectory, target?_seenFrom fs wd h]

theorem isFile_seenFrom : (fs.seenFrom wd).isFile path = fs.isFile path := by
  rw [isFile, isFile, target?_seenFrom fs wd h]

theorem isPresent_seenFrom : (fs.seenFrom wd).isPresent path = fs.isPresent path := by
  rw [isPresent, isPresent, target?_seenFrom fs wd h]

theorem list?_seenFrom : (fs.seenFrom wd).list? path = fs.list? path := by
  rw [list?, list?, resolve_seenFrom fs wd h]
  rfl

theorem hasStep_seenFrom (name : RawPath) : (fs.seenFrom wd).hasStep path name = fs.hasStep path name := by
  rw [hasStep, hasStep, isDirectory_seenFrom fs wd h, isPresent_seenFrom fs wd (Path.isAbsolute_join h name)]

omit h in
theorem isAbsolute_of_mem_below {depth : Nat} (h : Path.isAbsolute path = true) {child : RawPath × RawPath}
    (hmem : child ∈ fs.below depth path) : Path.isAbsolute child.1 = true := by
  induction depth generalizing path with
  | zero => cases hmem
  | succ depth ih =>
    obtain ⟨name, -, hname⟩ := List.mem_flatMap.1 hmem
    rcases List.mem_cons.1 hname with rfl | hbelow
    · exact Path.isAbsolute_join h name
    · exact ih (Path.isAbsolute_join h name) hbelow

theorem below_seenFrom (depth : Nat) : (fs.seenFrom wd).below depth path = fs.below depth path := by
  induction depth generalizing path with
  | zero => rfl
  | succ depth ih =>
    rw [below, below, list?_seenFrom fs wd h]
    apply List.flatMap_congr
    intro name _
    show (_, _) :: _ = (_, _) :: _
    rw [ih (Path.isAbsolute_join h name)]

omit h in
theorem isAbsolute_of_mem_expand {onlyDirectories : Bool} {segments : List Pattern.Segment} {found : RawPath}
    (h : Path.isAbsolute path = true) (hmem : found ∈ fs.expand onlyDirectories segments path) :
    Path.isAbsolute found = true := by
  fun_induction expand fs onlyDirectories segments path with
  | case1 => cases hmem
  | case2 => rwa [List.mem_singleton.1 hmem]
  | case3 _ _ _ _ ih => exact ih (Path.isAbsolute_join h _) hmem
  | case4 => cases hmem
  | case5 => cases hmem
  | case6 _ _ _ _ _ ih =>
    obtain ⟨name, -, hname⟩ := List.mem_flatMap.1 hmem
    exact ih name (Path.isAbsolute_join h name) hname
  | case7 =>
    obtain ⟨child, hchild, rfl⟩ := List.mem_map.1 (List.mem_of_mem_filter hmem)
    exact isAbsolute_of_mem_below fs h hchild
  | case8 segment _ _ ih =>
    obtain ⟨⟨child, name⟩, hchild, hbelow⟩ := List.mem_flatMap.1 hmem
    by_cases hholds : segment.holds name = true
    · exact ih child (isAbsolute_of_mem_below fs h hchild) (by simpa [hholds] using hbelow)
    · simp [hholds] at hbelow

theorem expand_seenFrom (onlyDirectories : Bool) (segments : List Pattern.Segment) :
    (fs.seenFrom wd).expand onlyDirectories segments path = fs.expand onlyDirectories segments path := by
  fun_induction expand fs onlyDirectories segments path with
  | case1 path hskip => rw [expand, isDirectory_seenFrom fs wd h, if_pos hskip]
  | case2 path hkeep => rw [expand, isDirectory_seenFrom fs wd h, if_neg hkeep]
  | case3 name rest path hstep ih =>
    rw [expand, hasStep_seenFrom fs wd h, if_pos hstep, ih (Path.isAbsolute_join h name)]
  | case4 name rest path hstep => rw [expand, hasStep_seenFrom fs wd h, if_neg hstep]
  | case5 atoms rest path hnone => rw [expand, list?_seenFrom fs wd h, hnone]
  | case6 atoms rest path names hnames ih =>
    rw [expand, list?_seenFrom fs wd h, hnames]
    exact List.flatMap_congr fun name _ => ih name (Path.isAbsolute_join h name)
  | case7 path =>
    have hbound : (fs.seenFrom wd).walkBound = fs.walkBound := rfl
    rw [expand, hbound, below_seenFrom fs wd h]
    apply List.filter_congr
    intro found hfound
    obtain ⟨child, hchild, rfl⟩ := List.mem_map.1 hfound
    exact isDirectory_seenFrom fs wd (isAbsolute_of_mem_below fs h hchild)
  | case8 segment rest path ih =>
    have hbound : (fs.seenFrom wd).walkBound = fs.walkBound := rfl
    rw [expand, hbound, below_seenFrom fs wd h]
    apply List.flatMap_congr
    intro entry hchild
    obtain ⟨child, name⟩ := entry
    simp only [ih child (isAbsolute_of_mem_below fs h hchild)]

end Absolute

theorem matching_seenFrom (glob : Pattern.Glob) : (fs.seenFrom wd).matching glob = fs.matching glob :=
  expand_seenFrom fs wd rfl _ _

/-! ### Paths in two parts -/

section Parts

variable {fs : FileSystem} {manner : Manner} {here middle there : Place} {ways more : List RawPath} {k n : Nat}

/-- What is behind a path is followed from where the path leads, with the links that are left. -/
theorem Reaches.follow_append (h : Reaches fs manner here ways k middle) (links : Nat) (more : List RawPath) :
    fs.follow manner links here (ways ++ more) =
      if k ≤ links then fs.follow manner (links - k) middle more else .error .tooManyLinks := by
  induction h generalizing links with
  | done here => rw [List.nil_append, if_pos (Nat.zero_le links), Nat.sub_zero]
  | @step _ _ _ _ _ _ k n free leads _ ih =>
    rw [List.cons_append, leads.follow_eq free, ← List.append_assoc, ih]
    by_cases hk : k ≤ links
    · rw [if_pos hk, Nat.sub_sub]
      simp only [show n ≤ links - k ↔ k + n ≤ links by omega]
    · rw [if_neg hk, if_neg (by omega)]

/-- With more links allowed a path leads nowhere else, if it did not run out of them. -/
theorem follow_of_more_links {links : Nat} (h : fs.follow manner links here ways ≠ .error .tooManyLinks)
    (extra : Nat) : fs.follow manner (links + extra) here ways = fs.follow manner links here ways := by
  fun_induction follow fs manner links here ways with
  | case1 => rw [follow]
  | case2 _ _ _ _ _ hbarred => rw [follow, hbarred]
  | case3 _ _ _ _ hfree hcurrent ih =>
    rw [follow, hfree]
    dsimp only
    rw [if_pos hcurrent, ih h]
  | case4 _ _ _ hfree hcurrent ih =>
    rw [follow, hfree]
    dsimp only
    rw [if_neg hcurrent, if_pos rfl, ih h]
  | case5 _ _ _ _ hfree hcurrent hparent hnone =>
    rw [follow, hfree]
    dsimp only
    rw [if_neg hcurrent, if_neg hparent, hnone]
  | case6 => exact absurd rfl h
  | case7 here name rest hfree hcurrent hparent target hlink left ih =>
    rw [show left + 1 + extra = left + extra + 1 by omega, follow, hfree]
    dsimp only
    rw [if_neg hcurrent, if_neg hparent, hlink]
    exact ih h
  | case8 links here name rest hfree hcurrent hparent held noLink hheld ih =>
    rw [follow, hfree]
    dsimp only
    rw [if_neg hcurrent, if_neg hparent, hheld, ← ih h]
    cases held with
    | file content => rfl
    | directory => rfl
    | link target => exact absurd rfl (noLink target)
    | special content => rfl

end Parts

end FileSystem

/-- A failure without the path of the file that cannot be read, which is written as it was asked for. -/
def Failure.withoutPath : Failure → Failure
  | .unreadable _ error => .unreadable [] error
  | failure => failure

namespace Discovery

open FileSystem

theorem withExtension_seenFrom (fs : FileSystem) (wd : Place) (root : RawPath) (ext : String) :
    withExtension (fs.seenFrom wd) root ext = withExtension fs root ext := by
  simp only [withExtension, matching_seenFrom]
  split
  · rfl
  · next glob _ =>
    apply congrArg Except.ok
    apply List.filter_congr
    intro found hfound
    exact isFile_seenFrom fs wd (isAbsolute_of_mem_expand fs rfl hfound)

/-! ### The real files of a request -/

/-- The real paths of files. -/
def realPaths (files : List DiscoveredFile) : Set RawPath :=
  {path | ∃ file ∈ files, file.realPath = path}

/-- The real paths of the files that are found for a request, by the place it leads to and the one that
its absolute path is found for. -/
def realFilesAt (fs : FileSystem) (exclude extensions : List String) (target real : Except FileError Place) :
    Except Failure (Set RawPath) :=
  match (target.toOption.bind fs.entry?), real with
  | some (.file _), .ok place => .ok {place.path}
  | some .directory, .ok place =>
    ((extensions.mapM (withExtension fs place.path)).mapError Failure.withoutPath).map fun found =>
      {path | path ∈ keptPaths place.path exclude found.flatten}
  | some (.file _), .error e | some .directory, .error e => .error (.unreadable [] e)
  | _, _ => .ok ∅

variable (fs : FileSystem) (exclude extensions : List String)

theorem realFilesAt_seenFrom (wd : Place) (target real : Except FileError Place) :
    realFilesAt (fs.seenFrom wd) exclude extensions target real =
      realFilesAt fs exclude extensions target real := by
  have hsearch (root : RawPath) : withExtension (fs.seenFrom wd) root = withExtension fs root :=
    funext (withExtension_seenFrom fs wd root)
  have hentry : FileSystem.entry? (fs.seenFrom wd) = fs.entry? := rfl
  simp only [realFilesAt, hentry, hsearch]

theorem realFilesAt_file {place : Place} {content : ByteArray} (h : fs.entry? place = some (.file content))
    (real : Except FileError Place) : realFilesAt fs exclude extensions (.ok place) real =
      (real.mapError (Failure.unreadable [])).map fun spot => {spot.path} := by
  have hentry : (Except.ok place : Except FileError Place).toOption.bind fs.entry? = some (.file content) := h
  unfold realFilesAt
  rw [hentry]
  cases real <;> rfl

theorem realFilesAt_nothing {target : Except FileError Place}
    (h : ∀ entry, target.toOption.bind fs.entry? = some entry →
      entry.isFile = false ∧ entry.isDirectory = false) (real : Except FileError Place) :
    realFilesAt fs exclude extensions target real = .ok ∅ := by
  unfold realFilesAt
  cases hentry : target.toOption.bind fs.entry? with
  | none => rfl
  | some entry =>
    obtain ⟨hfile, hdirectory⟩ := h entry hentry
    cases entry with
    | file content => cases hfile
    | directory => cases hdirectory
    | link path => rfl
    | special content => rfl

/-- What files were found, or what kept them from being found. -/
def outcome {α : Type} (files : α → Set RawPath) (result : Except Failure α) : Except Failure (Set RawPath) :=
  (result.mapError Failure.withoutPath).map files

section Request

variable {fs exclude extensions} {requested : String} {place : Place}

theorem outcome_nothing (hfile : ¬ fs.isFile requested = true) (hdirectory : ¬ fs.isDirectory requested = true) :
    outcome realPaths (filesFor fs requested exclude extensions) = .ok ∅ := by
  rw [filesFor, if_neg hfile, if_neg hdirectory]
  apply congrArg Except.ok
  apply Set.ext
  simp [realPaths]

theorem outcome_file {content : ByteArray} (hplace : fs.resolve requested = .ok place)
    (hat : fs.entry? place = some (.file content)) :
    outcome realPaths (filesFor fs requested exclude extensions) =
      ((fs.realPlace requested).mapError (Failure.unreadable [])).map fun spot => {spot.path} := by
  cases hreal : fs.realPlace requested with
  | error e =>
    rw [filesFor_refused fs hplace (.inr ⟨content, hat⟩) hreal]
    rfl
  | ok spot =>
    obtain rfl := eq_of_realPlace hreal hplace
    rw [filesFor_file fs hplace hat hreal]
    apply congrArg Except.ok
    apply Set.ext
    simp [realPaths, eq_comm]

theorem outcome_directory (hplace : fs.resolve requested = .ok place)
    (hat : fs.entry? place = some .directory) :
    outcome realPaths (filesFor fs requested exclude extensions) =
      realFilesAt fs exclude extensions (.ok place) (fs.realPlace requested) := by
  have hentry : (Except.ok place : Except FileError Place).toOption.bind fs.entry? = some .directory := hat
  unfold realFilesAt
  rw [hentry]
  cases hreal : fs.realPlace requested with
  | error e =>
    rw [filesFor_refused fs hplace (.inl (isDirectoryAt_iff.2 hat)) hreal]
    rfl
  | ok spot =>
    obtain rfl := eq_of_realPlace hreal hplace
    rw [filesFor_directory fs hplace (isDirectoryAt_iff.2 hat) hreal]
    show Except.map _ (Except.mapError _ (Except.map _ _)) = Except.map _ (Except.mapError _ _)
    cases extensions.mapM (withExtension fs spot.path) with
    | error e => rfl
    | ok found =>
      apply congrArg Except.ok
      apply Set.ext
      simp [realPaths, keptFiles, fileAt]

end Request

/-- What a request leads to determines the real files that are found for it. -/
theorem outcome_filesFor (requested : String) :
    outcome realPaths (filesFor fs requested exclude extensions) =
      realFilesAt fs exclude extensions (fs.resolve requested) (fs.realPlace requested) := by
  by_cases hfile : fs.isFile requested = true
  · obtain ⟨place, content, hplace, hat⟩ := exists_file_of_isFile hfile
    rw [outcome_file hplace hat, hplace, realFilesAt_file fs exclude extensions hat]
  by_cases hdirectory : fs.isDirectory requested = true
  · obtain ⟨place, hplace, hat⟩ := exists_resolve_of_target hdirectory
    rw [outcome_directory hplace (isDirectoryAt_iff.1 hat), hplace]
  · have htarget : (fs.resolve requested).toOption.bind fs.entry? = fs.target? requested := by
      rw [target?]
      cases fs.resolve requested <;> rfl
    have hneither : ∀ entry, fs.target? requested = some entry →
        entry.isFile = false ∧ entry.isDirectory = false := by
      intro entry hentry
      rw [isFile, hentry] at hfile
      rw [isDirectory, hentry] at hdirectory
      exact ⟨Bool.eq_false_iff.2 hfile, Bool.eq_false_iff.2 hdirectory⟩
    rw [← htarget] at hneither
    rw [outcome_nothing hfile hdirectory, realFilesAt_nothing fs exclude extensions hneither]

/-! ### The real files of all requests -/

/-- The real paths of the files of groups. -/
def realFiles (groups : List PathGroup) : Set RawPath :=
  {path | ∃ group ∈ groups, ∃ file ∈ group.files, file.realPath = path}

/-- All that was found, or the first failure. -/
def unite (results : List (Except Failure (Set RawPath))) : Except Failure (Set RawPath) :=
  (results.mapM id).map fun sets => {path | ∃ set ∈ sets, path ∈ set}

theorem unite_cons (first : Except Failure (Set RawPath)) (rest : List (Except Failure (Set RawPath))) :
    unite (first :: rest) = first.bind fun set => (unite rest).map fun sets => set ∪ sets := by
  rw [unite, List.mapM_cons, unite]
  cases first with
  | error e => rfl
  | ok set =>
    cases rest.mapM id with
    | error e => rfl
    | ok sets =>
      refine congrArg Except.ok (Set.ext fun path => ?_)
      simp

theorem unite_of_forall₂ {found : String → Except Failure (List DiscoveredFile)} {paths : List String}
    {results : List (List DiscoveredFile)}
    (h : List.Forall₂ (fun requested files => found requested = .ok files) paths results) :
    unite (paths.map fun requested => outcome realPaths (found requested)) =
      .ok {path | ∃ requested ∈ paths, ∃ files, found requested = .ok files ∧ path ∈ realPaths files} := by
  induction h with
  | nil =>
    refine congrArg Except.ok (Set.ext fun path => ?_)
    simp
  | @cons requested files paths results hfiles _ ih =>
    rw [List.map_cons, unite_cons, ih, hfiles]
    refine congrArg Except.ok (Set.ext fun path => ?_)
    simp [hfiles]

theorem unite_of_error {found : String → Except Failure (List DiscoveredFile)} {before : List String}
    {requested : String} {e : Failure} (hbefore : ∀ other ∈ before, ∃ files, found other = .ok files)
    (h : found requested = .error e) (behind : List String) :
    unite ((before ++ requested :: behind).map fun requested => outcome realPaths (found requested)) =
      .error e.withoutPath := by
  induction before with
  | nil =>
    rw [List.nil_append, List.map_cons, unite_cons, h]
    rfl
  | cons first before ih =>
    obtain ⟨⟨files, hfiles⟩, hrest⟩ := List.forall_mem_cons.1 hbefore
    rw [List.cons_append, List.map_cons, unite_cons, ih hrest, hfiles]
    rfl

/-- The real files of requests are those of each of them. -/
theorem outcome_discover (paths : List String) :
    outcome realFiles (discover fs paths exclude extensions) =
      unite (paths.map fun requested : String =>
        realFilesAt fs exclude extensions (fs.resolve requested) (fs.realPlace requested)) := by
  simp only [← outcome_filesFor]
  rcases mapM_cases (filesFor fs · exclude extensions) paths with
    ⟨results, -, hall⟩ | ⟨before, requested, behind, e, rfl, hbefore, hfails, -⟩
  · have hgroup : ∀ requested ∈ paths, ∃ result, groupFor fs exclude extensions requested = .ok result := by
      intro requested hmem
      obtain ⟨files, hfiles⟩ := exists_of_forall₂ hall hmem
      exact ⟨_, groupFor_eq_ok_iff.2 ⟨files, hfiles, rfl⟩⟩
    obtain ⟨groups, hgroups⟩ := exists_discover hgroup
    obtain ⟨gathered, hgathered, rfl⟩ := gathered_of_discover hgroups
    rw [hgroups, unite_of_forall₂ hall]
    refine congrArg Except.ok (Set.ext fun path => ?_)
    simp only [realFiles, Set.mem_ofPred_eq, hgathered.mem_iff, List.mem_eraseDups]
    constructor
    · rintro ⟨group, ⟨hmem, -, hfiles⟩, file, hfile, rfl⟩
      exact ⟨group.requested, hmem, group.files, hfiles, file, hfile, rfl⟩
    · rintro ⟨requested, hmem, files, hfiles, file, hfile, rfl⟩
      exact ⟨⟨requested, files⟩, ⟨hmem, List.ne_nil_of_mem hfile, hfiles⟩, file, hfile, rfl⟩
  · have hgroup : ∀ other ∈ before, ∃ result, groupFor fs exclude extensions other = .ok result := by
      intro other hother
      obtain ⟨files, hfiles⟩ := hbefore other hother
      exact ⟨_, groupFor_eq_ok_iff.2 ⟨files, hfiles, rfl⟩⟩
    have hfailure : groupFor fs exclude extensions requested = .error e := by
      rw [groupFor, hfails]
      rfl
    rw [discover_of_first_failure hgroup hfailure, unite_of_error hbefore hfails]
    rfl

end Discovery

end TemplateLint
