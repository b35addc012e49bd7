import Mathlib.Data.List.Basic
import TemplateLint.Proofs.Files.Places

/-!
# Links on the way of a path

Following a path may end because it has run through too many links. Here a path is followed without that
limit, and the links on the way are counted: what a path leads to and through how many links is a
relation (`Reaches`), and a path that leads somewhere can be followed just if its links are not too many
(`Reaches.follow_eq`). Counts add up when the steps of one path come behind those of another, so it is
known of a path made of two parts when it can be followed.

A path can be followed in two manners, which differ in what keeps them from taking a step but not in
where the step leads. So a path that leads somewhere in both manners leads to one place, through the same
links (`Reaches.unique`).
-/

namespace TemplateLint.FileSystem

/-- One step from a directory leads to a place through no link or one, whose own steps then come first. -/
inductive Step (fs : FileSystem) (here : Place) : RawPath → Nat → Place → List RawPath → Prop where
  | current {step : RawPath} (isCurrent : step = [] ∨ step = ".") : Step fs here step 0 here []
  | parent : Step fs here ".." 0 here.dropLast []
  | entry {name : RawPath} {held : Entry} (isName : isIdle name = false)
      (held_eq : fs.entry? (here ++ [name]) = some held) (noLink : ∀ target, held ≠ .link target) :
      Step fs here name 0 (here ++ [name]) []
  | link {name target : RawPath} (isName : isIdle name = false)
      (held_eq : fs.entry? (here ++ [name]) = some (.link target)) :
      Step fs here name 1 (origin target here) (steps target)

/-- Steps from a place lead to another place, through so many links. -/
inductive Reaches (fs : FileSystem) (manner : Manner) :
    Place → List RawPath → Nat → Place → Prop where
  | done (here : Place) : Reaches fs manner here [] 0 here
  | step {here next there : Place} {name : RawPath} {first rest : List RawPath} {k n : Nat}
      (free : fs.barrier? manner here name = none) (leads : Step fs here name k next first)
      (onward : Reaches fs manner next (first ++ rest) n there) :
      Reaches fs manner here (name :: rest) (k + n) there

variable {fs : FileSystem} {manner other : Manner} {here there : Place}

theorem isIdle_eq_false_iff {step : RawPath} :
    isIdle step = false ↔ step ≠ [] ∧ step ≠ "." ∧ step ≠ ".." := by
  simp [isIdle, and_assoc]

theorem isIdle_of_validName {name : RawPath} (h : ValidName name) : isIdle name = false :=
  isIdle_eq_false_iff.2 ⟨h.ne_nil, h.ne_current, h.ne_parent⟩

namespace Step

variable {name : RawPath} {k : Nat} {next : Place} {first : List RawPath}

theorem follow_eq (h : Step fs here name k next first) (free : fs.barrier? manner here name = none)
    (links : Nat) (rest : List RawPath) : fs.follow manner links here (name :: rest) =
      if k ≤ links then fs.follow manner (links - k) next (first ++ rest) else .error .tooManyLinks := by
  rw [follow, free]
  cases h with
  | current isCurrent => simp [isCurrent]
  | parent =>
    have hnot : ¬ ((".." : RawPath) = [] ∨ (".." : RawPath) = ".") := by decide
    simp [hnot]
  | @entry _ held isName hheld noLink =>
    obtain ⟨hempty, hcurrent, hparent⟩ := isIdle_eq_false_iff.1 isName
    simp only [hempty, hcurrent, or_self, if_false, hparent, hheld]
    cases held with
    | file content => rfl
    | directory => rfl
    | link target => exact absurd rfl (noLink target)
    | special content => rfl
  | link isName hheld =>
    obtain ⟨hempty, hcurrent, hparent⟩ := isIdle_eq_false_iff.1 isName
    simp only [hempty, hcurrent, or_self, if_false, hparent, hheld]
    cases links <;> rfl

theorem of_current (h : Step fs here name k next first) (isCurrent : name = [] ∨ name = ".") :
    k = 0 ∧ next = here ∧ first = [] := by
  have hidle : isIdle name = true := by
    rcases isCurrent with rfl | rfl <;> rfl
  cases h with
  | current => exact ⟨rfl, rfl, rfl⟩
  | parent => exact absurd isCurrent (by decide)
  | entry isName => cases isName.symm.trans hidle
  | link isName => cases isName.symm.trans hidle

/-- A step leads to one place. -/
theorem unique {k' : Nat} {next' : Place} {first' : List RawPath} (h : Step fs here name k next first)
    (h' : Step fs here name k' next' first') : k = k' ∧ next = next' ∧ first = first' := by
  cases h with
  | current isCurrent =>
    obtain ⟨rfl, rfl, rfl⟩ := h'.of_current isCurrent
    exact ⟨rfl, rfl, rfl⟩
  | parent =>
    cases h' with
    | current isCurrent => exact absurd isCurrent (by decide)
    | parent => exact ⟨rfl, rfl, rfl⟩
    | entry isName => cases isName
    | link isName => cases isName
  | entry isName hheld noLink =>
    cases h' with
    | current isCurrent =>
      obtain ⟨hempty, hcurrent, -⟩ := isIdle_eq_false_iff.1 isName
      exact absurd isCurrent (not_or.2 ⟨hempty, hcurrent⟩)
    | parent => cases isName
    | entry => exact ⟨rfl, rfl, rfl⟩
    | link _ hlink => exact absurd (Option.some.inj (hheld.symm.trans hlink)) (noLink _)
  | link isName hheld =>
    cases h' with
    | current isCurrent =>
      obtain ⟨hempty, hcurrent, -⟩ := isIdle_eq_false_iff.1 isName
      exact absurd isCurrent (not_or.2 ⟨hempty, hcurrent⟩)
    | parent => cases isName
    | entry _ hentry noLink => exact absurd (Option.some.inj (hentry.symm.trans hheld)) (noLink _)
    | link _ hlink =>
      cases hheld.symm.trans hlink
      exact ⟨rfl, rfl, rfl⟩

end Step

/-- What is followed leads where it is found to lead. -/
theorem exists_reaches {links : Nat} {path : List RawPath}
    (h : fs.follow manner links here path = .ok there) :
    ∃ n ≤ links, Reaches fs manner here path n there := by
  fun_induction follow fs manner links here path with
  | case1 links here =>
    cases h
    exact ⟨0, Nat.zero_le links, .done _⟩
  | case2 => cases h
  | case3 links here step rest hfree hcurrent ih =>
    obtain ⟨n, hle, honward⟩ := ih h
    exact ⟨0 + n, by omega, .step hfree (.current hcurrent) honward⟩
  | case4 links here rest hfree _ ih =>
    obtain ⟨n, hle, honward⟩ := ih h
    exact ⟨0 + n, by omega, .step hfree .parent honward⟩
  | case5 => cases h
  | case6 => cases h
  | case7 here name rest hfree hcurrent hparent target hheld left ih =>
    rw [not_or] at hcurrent
    obtain ⟨n, hle, honward⟩ := ih h
    exact ⟨1 + n, by omega,
      .step hfree (.link (isIdle_eq_false_iff.2 ⟨hcurrent.1, hcurrent.2, hparent⟩) hheld) honward⟩
  | case8 links here name rest hfree hcurrent hparent held noLink hheld ih =>
    rw [not_or] at hcurrent
    obtain ⟨n, hle, honward⟩ := ih h
    exact ⟨0 + n, by omega, .step hfree
      (.entry (isIdle_eq_false_iff.2 ⟨hcurrent.1, hcurrent.2, hparent⟩) hheld noLink) honward⟩

namespace Reaches

variable {path more : List RawPath} {middle : Place} {n k m : Nat}

/-- Steps that lead somewhere can be followed just if they run through no more links than allowed. -/
theorem follow_eq (h : Reaches fs manner here path n there) (links : Nat) :
    fs.follow manner links here path = if n ≤ links then .ok there else .error .tooManyLinks := by
  induction h generalizing links with
  | done here => rw [follow, if_pos (Nat.zero_le links)]
  | @step _ _ _ _ _ _ k n free leads _ ih =>
    rw [leads.follow_eq free, ih]
    by_cases hk : k ≤ links
    · simp only [if_pos hk, show n ≤ links - k ↔ k + n ≤ links by omega]
    · rw [if_neg hk, if_neg (by omega)]

/-- Steps lead to one place, in whichever manner they are followed. -/
theorem unique {spot : Place} (h : Reaches fs manner here path n there)
    (h' : Reaches fs other here path m spot) : n = m ∧ there = spot := by
  induction h generalizing m with
  | done here =>
    cases h'
    exact ⟨rfl, rfl⟩
  | step _ leads _ ih =>
    cases h' with
    | step _ leads' onward' =>
      obtain ⟨rfl, rfl, rfl⟩ := leads.unique leads'
      obtain ⟨rfl, rfl⟩ := ih onward'
      exact ⟨rfl, rfl⟩

/-! ### Paths in two parts -/

theorem append (h : Reaches fs manner here path k middle) (hmore : Reaches fs manner middle more m there) :
    Reaches fs manner here (path ++ more) (k + m) there := by
  induction h with
  | done here => rwa [List.nil_append, Nat.zero_add]
  | step free leads _ ih =>
    rw [List.cons_append, Nat.add_assoc]
    refine .step free leads ?_
    rw [← List.append_assoc]
    exact ih hmore

/-- A path in two parts leads first to where its front leads. -/
theorem of_append (h : Reaches fs manner here (path ++ more) n there) :
    ∃ middle k m, n = k + m ∧ Reaches fs manner here path k middle ∧
      Reaches fs manner middle more m there := by
  generalize hsteps : path ++ more = steps at h
  -- A link puts its own steps in front of what is left of the first part.
  induction h generalizing path with
  | done here =>
    obtain ⟨rfl, rfl⟩ := List.append_eq_nil_iff.1 hsteps
    exact ⟨here, 0, 0, rfl, .done here, .done here⟩
  | @step here _ _ _ _ _ j n free leads onward ih =>
    rcases List.append_eq_cons_iff.1 hsteps with ⟨rfl, rfl⟩ | ⟨front, rfl, rfl⟩
    · exact ⟨here, 0, j + n, (Nat.zero_add _).symm, .done here, .step free leads onward⟩
    · obtain ⟨middle, k, m, rfl, hfront, hmore⟩ := ih (List.append_assoc _ _ _)
      exact ⟨middle, j + k, m, (Nat.add_assoc _ _ _).symm, .step free leads hfront, hmore⟩

end Reaches

/-! ### Paths of bytes -/

/-- A path leads to a place, through so many links, whatever its length. -/
structure LeadsTo (fs : FileSystem) (path : RawPath) (n : Nat) (place : Place) : Prop where
  ne_nil : path ≠ []
  reaches : Reaches fs .stepwise (origin path fs.workingDirectory) (steps path) n place

variable {path : RawPath} {place : Place} {n : Nat}

theorem LeadsTo.resolve_eq (h : LeadsTo fs path n place) :
    fs.resolve path = if maxPath < path.length then .error .nameTooLong
      else if n ≤ maxLinks then .ok place else .error .tooManyLinks := by
  rw [resolve, if_neg h.ne_nil, h.reaches.follow_eq]

theorem LeadsTo.resolve_eq_ok (h : LeadsTo fs path n place) (hshort : path.length ≤ maxPath)
    (hle : n ≤ maxLinks) : fs.resolve path = .ok place := by
  rw [h.resolve_eq, if_neg (Nat.not_lt.2 hshort), if_pos hle]

theorem exists_leadsTo (h : fs.resolve path = .ok place) :
    path.length ≤ maxPath ∧ ∃ n ≤ maxLinks, LeadsTo fs path n place := by
  unfold resolve at h
  split at h
  · cases h
  · next hne =>
    split at h
    · cases h
    · next hshort =>
      obtain ⟨n, hle, hreaches⟩ := exists_reaches h
      exact ⟨Nat.not_lt.1 hshort, n, hle, hne, hreaches⟩

/-- A path that leads somewhere in both manners leads to one place. -/
theorem eq_of_realPlace {spot : Place} (h : fs.realPlace path = .ok spot)
    (hplace : fs.resolve path = .ok place) : spot = place := by
  obtain ⟨-, n, -, hleads⟩ := exists_leadsTo hplace
  rw [realPlace, if_neg hleads.ne_nil] at h
  obtain ⟨m, -, hreaches⟩ := exists_reaches h
  exact (hreaches.unique hleads.reaches).2

/-- A slash at the end of a path changes nothing about where the path leads, if it leads anywhere. -/
theorem Reaches.parts (h : Reaches fs manner here (steps path) n there) :
    Reaches fs manner here (Path.parts path) n there := by
  unfold steps at h
  split at h
  · obtain ⟨middle, k, m, rfl, hparts, hslash⟩ := h.of_append
    cases hslash with
    | step _ leads onward =>
      obtain ⟨rfl, rfl, rfl⟩ := leads.of_current (.inl rfl)
      cases onward
      exact hparts
  · rwa [List.append_nil] at h

/-! ### Paths of places -/

/-- There are no links on the names that lead to an entry. -/
theorem WellFormed.reaches_names (wf : fs.WellFormed) {names : List RawPath} {entry : Entry}
    (h : fs.entry? (here ++ names) = some entry) (hlink : ∀ target, entry ≠ .link target)
    (hopen : ∀ spot ∈ fs.closed, here <+: spot → spot <+: here ++ names → spot = here ++ names) :
    Reaches fs .stepwise here names 0 (here ++ names) := by
  obtain ⟨n, hle, hreaches⟩ := exists_reaches ((wf.follow_names 0 h hlink).2 ⟨rfl, hopen⟩)
  rwa [Nat.le_zero.1 hle] at hreaches

/-- There are no links on the way to a directory, so what is behind it can be followed from there. -/
theorem WellFormed.reaches_of_append (wf : fs.WellFormed) (hdirectory : fs.isDirectoryAt here = true)
    {names : List RawPath} (h : Reaches fs .stepwise [] (here ++ names) n there) :
    Reaches fs .stepwise here names n there := by
  have hentry : fs.entry? ([] ++ here) = some .directory := isDirectoryAt_iff.1 hdirectory
  obtain ⟨middle, k, m, rfl, hfront, honward⟩ := h.of_append
  have hfollow := (hfront.follow_eq k).trans (if_pos (Nat.le_refl k))
  obtain ⟨rfl, hopen⟩ := (wf.follow_names k hentry Entry.directory_ne_link).1 hfollow
  obtain ⟨rfl, -⟩ := (wf.reaches_names hentry Entry.directory_ne_link hopen).unique hfront
  rwa [Nat.zero_add]

theorem WellFormed.reaches_append_iff (wf : fs.WellFormed) (hdirectory : fs.isDirectoryAt here = true)
    (hopen : ∀ spot ∈ fs.closed, spot <+: here → spot = here) {names : List RawPath} :
    Reaches fs .stepwise [] (here ++ names) n there ↔ Reaches fs .stepwise here names n there := by
  constructor
  · intro h
    exact wf.reaches_of_append hdirectory h
  · intro h
    have hentry : fs.entry? ([] ++ here) = some .directory := isDirectoryAt_iff.1 hdirectory
    rw [← Nat.zero_add n]
    exact (wf.reaches_names hentry Entry.directory_ne_link fun spot hspot _ => hopen spot hspot).append h

theorem WellFormed.leadsTo_path_iff (wf : fs.WellFormed) (hdirectory : fs.isDirectoryAt here = true)
    (hopen : ∀ spot ∈ fs.closed, spot <+: here → spot = here) {names : List RawPath}
    (hne : here ++ names ≠ []) (hvalid : ∀ name ∈ here ++ names, ValidName name) :
    LeadsTo fs (Place.path (here ++ names)) n there ↔ Reaches fs .stepwise here names n there := by
  have horigin : origin (Place.path (here ++ names)) fs.workingDirectory = [] :=
    if_pos (Place.isAbsolute_path _)
  have hsteps := Place.steps_path hne hvalid
  rw [← wf.reaches_append_iff hdirectory hopen]
  constructor
  · intro h
    have hreaches := h.reaches
    rwa [horigin, hsteps] at hreaches
  · intro h
    refine ⟨Place.path_ne_nil _, ?_⟩
    rwa [horigin, hsteps]

theorem LeadsTo.lists (h : LeadsTo fs path n place) (hshort : path.length ≤ maxPath)
    (hle : n ≤ maxLinks) (hdirectory : fs.isDirectoryAt place = true)
    (hreadable : fs.refusal? place = none) {name : RawPath} {entry : Entry}
    (hentry : fs.entry? (place ++ [name]) = some entry) :
    ∃ names, fs.list? path = some names ∧ name ∈ names := by
  refine ⟨fs.namesBelow place, ?_, mem_namesBelow_iff.2 ⟨entry, hentry⟩⟩
  rw [list?, h.resolve_eq_ok hshort hle]
  dsimp only
  rw [hdirectory, hreadable]
  rfl

/-! ### What an absolute path can be found for -/

theorem isDirectoryAt_of_free {step : RawPath} (h : fs.barrier? manner here step = none) :
    fs.isDirectoryAt here = true := by
  unfold barrier? at h
  split at h
  · cases h
  · next hdirectory => simpa using hdirectory

theorem isOpen_of_free {name : RawPath} (hname : isIdle name = false)
    (h : fs.barrier? .absolute here name = none) : fs.IsOpen (here ++ [name]) := by
  have hdirectory := isDirectoryAt_of_free h
  rw [barrier?, hdirectory, hname] at h
  simp only [Bool.not_true, Bool.false_eq_true, if_false] at h
  split at h
  · cases h
  · next hshort =>
    split at h
    · cases h
    · next hopen =>
      rw [Bool.not_eq_true, List.any_eq_false] at hopen
      refine ⟨fun spot hspot hprefix => ?_, Nat.not_lt.1 hshort⟩
      rcases List.prefix_concat_iff.1 hprefix with hsame | hbelow
      · exact hsame
      · exact absurd (List.isPrefixOf_iff_prefix.2 hbelow) (hopen spot hspot)

/-- Where a path leads by the absolute paths on its way, there is a directory or an open place. -/
theorem WellFormed.isOpen_of_reaches (wf : fs.WellFormed) {steps : List RawPath}
    (h : Reaches fs .absolute here steps n there) :
    (steps = [] ∧ there = here) ∨ fs.isDirectoryAt there = true ∨ fs.IsOpen there := by
  induction h with
  | done here => exact .inl ⟨rfl, rfl⟩
  | @step here _ _ _ _ _ _ _ free leads _ ih =>
    have hdirectory := isDirectoryAt_of_free free
    refine .inr ?_
    rcases ih with ⟨-, rfl⟩ | hthere
    · cases leads with
      | current => exact .inl hdirectory
      | parent =>
        by_cases hne : here = []
        · subst hne
          exact .inl rfl
        · exact .inl (wf.isDirectoryAt_dropLast hne (isDirectoryAt_iff.1 hdirectory))
      | entry isName => exact .inr (isOpen_of_free isName free)
      | link =>
        refine .inl ?_
        rw [origin]
        split
        · rfl
        · exact hdirectory
    · exact hthere

theorem mem_joinWith {cut b : UInt8} {parts : List RawPath} (h : b ∈ Text.joinWith cut parts) :
    b = cut ∨ ∃ part ∈ parts, b ∈ part := by
  induction parts with
  | nil => cases h
  | cons part parts ih =>
    by_cases hne : parts = []
    · subst hne
      exact .inr ⟨part, List.mem_singleton_self part, h⟩
    · rw [Text.joinWith_cons cut part hne, List.mem_append, List.mem_cons] at h
      rcases h with hpart | hcut | hrest
      · exact .inr ⟨part, List.mem_cons_self, hpart⟩
      · exact .inl hcut
      · refine (ih hrest).imp_right ?_
        intro hfound
        obtain ⟨other, hother, hb⟩ := hfound
        exact ⟨other, List.mem_cons_of_mem part hother, hb⟩

/-- A path that is not empty takes a step. -/
theorem steps_ne_nil (hne : path ≠ []) : steps path ≠ [] := by
  intro hnil
  obtain ⟨hparts, hlast⟩ := List.append_eq_nil_iff.1 hnil
  have hslash : path.getLast hne = Path.slash := by
    have hmem : path.getLast hne ∈ Text.joinWith Path.slash (Text.cutAt Path.slash path) := by
      rw [Text.joinWith_cutAt]
      exact List.getLast_mem hne
    rcases mem_joinWith hmem with hcut | ⟨part, hpart, hb⟩
    · exact hcut
    · have hempty : part = [] := by simpa using List.filter_eq_nil_iff.1 hparts part hpart
      rw [hempty] at hb
      cases hb
  rw [List.getLast?_eq_some_getLast hne, hslash, if_pos rfl] at hlast
  cases hlast

/-- The absolute path that is found for a file leads to it. -/
theorem WellFormed.isOpen_of_realPlace (wf : fs.WellFormed) (h : fs.realPlace path = .ok place)
    {content : ByteArray} (hat : fs.entry? place = some (.file content)) : fs.IsOpen place := by
  unfold realPlace at h
  split at h
  · cases h
  · next hne =>
    obtain ⟨n, -, hreaches⟩ := exists_reaches h
    rcases wf.isOpen_of_reaches hreaches with ⟨hnil, -⟩ | hdirectory | hopen
    · exact absurd hnil (steps_ne_nil hne)
    · cases (isDirectoryAt_iff.1 hdirectory).symm.trans hat
    · exact hopen

end TemplateLint.FileSystem
