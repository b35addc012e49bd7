import TemplateLint.Proofs.Files.Links

/-!
# What following a path depends on

Following a path looks at few entries: at those that its steps name, at the directories in which it takes
a step, and at the one where it ends. These are on its way (`OnWay`), and where they stay as they are, a
path that leads somewhere still leads there (`resolve_of_kept`, `realPlace_of_kept`). No path leads
anywhere only because an entry is gone or a file has another content (`Reduction.resolve`).

On the way of a path that leads somewhere, no file but the one it leads to can stand
(`Reaches.meets_file_iff`): behind a file there is no step.
-/

namespace TemplateLint.FileSystem

/-- Following steps from a place looks at what stands at another place. -/
inductive Meets (fs : FileSystem) : Place → List RawPath → Place → Prop where
  | here (here : Place) (path : List RawPath) : Meets fs here path here
  | entry {here : Place} {name : RawPath} {rest : List RawPath} (isName : isIdle name = false) :
      Meets fs here (name :: rest) (here ++ [name])
  | onward {here next place : Place} {name : RawPath} {first rest : List RawPath} {k : Nat}
      (leads : Step fs here name k next first) (onward : Meets fs next (first ++ rest) place) :
      Meets fs here (name :: rest) place

/-- Following a path looks at what stands at a place. -/
def OnWay (fs : FileSystem) (path : RawPath) (place : Place) : Prop :=
  Meets fs (origin path fs.workingDirectory) (steps path) place

/-- The same stands at a place in both file systems, and can or cannot be read in both. -/
def Keeps (fs fs' : FileSystem) (place : Place) : Prop :=
  fs'.entry? place = fs.entry? place ∧ fs'.refusal? place = fs.refusal? place

/-- A file system without some of the entries of another one, and with other contents in some files. Which
of them can be read may be another matter, too. -/
structure Reduction (fs fs' : FileSystem) : Prop where
  workingDirectory : fs'.workingDirectory = fs.workingDirectory
  closed : fs'.closed = fs.closed
  entries : ∀ place kept, fs'.entry? place = some kept → fs.entry? place = some kept ∨
    ∃ before after, fs.entry? place = some (.file before) ∧ kept = .file after

theorem Reduction.of_append (kept others : List (Place × Entry)) :
    Reduction { entries := kept ++ others } { entries := kept } := by
  refine ⟨rfl, rfl, fun place entry h => .inl ?_⟩
  unfold entry? at h ⊢
  split
  · rwa [if_pos ‹_›] at h
  · rw [if_neg ‹_›] at h
    rw [List.lookup_append, h]
    rfl

theorem keeps_append_of_not_mem {kept others : List (Place × Entry)} {place : Place}
    (h : place ∉ others.map Prod.fst) :
    Keeps { entries := kept ++ others } { entries := kept } place := by
  have hnone : others.lookup place = none := by
    rw [List.lookup_eq_none_iff]
    intro spot hspot
    simpa using fun heq : place = spot.1 => h (heq ▸ List.mem_map_of_mem hspot)
  refine ⟨?_, rfl⟩
  unfold entry?
  rw [List.lookup_append, hnone, Option.or_none]

variable {fs fs' : FileSystem} {manner : Manner} {here there next place : Place} {name path : RawPath}
  {first ways : List RawPath} {k n : Nat}

/-! ### One step -/

theorem Step.of_kept (h : Step fs here name k next first)
    (hkept : isIdle name = false → fs'.entry? (here ++ [name]) = fs.entry? (here ++ [name])) :
    Step fs' here name k next first := by
  cases h with
  | current isCurrent => exact .current isCurrent
  | parent => exact .parent
  | entry isName heq noLink => exact .entry isName ((hkept isName).trans heq) noLink
  | link isName heq => exact .link isName ((hkept isName).trans heq)

/-- A step that is free needs a directory, which is not among the closed ones. -/
theorem barrier?_of_free (hclosed : fs'.closed = fs.closed)
    (hdirectory : fs.isDirectoryAt here = true → fs'.isDirectoryAt here = true)
    (h : fs.barrier? manner here name = none) : fs'.barrier? manner here name = none := by
  have hfree := isDirectoryAt_of_free h
  unfold barrier? at h ⊢
  rw [hfree] at h
  rwa [hdirectory hfree, hclosed]

theorem isDirectoryAt_of_kept (h : fs.isDirectoryAt place = true) (hkept : fs'.entry? place = fs.entry? place) :
    fs'.isDirectoryAt place = true := by
  rwa [isDirectoryAt, hkept]

namespace Reduction

variable (reduction : Reduction fs fs')
include reduction

theorem isDirectoryAt (h : fs'.isDirectoryAt place = true) : fs.isDirectoryAt place = true := by
  rw [isDirectoryAt_iff] at h ⊢
  rcases reduction.entries _ _ h with h | ⟨_, _, -, h⟩
  · exact h
  · cases h

theorem step (h : Step fs' here name k next first) : Step fs here name k next first := by
  cases h with
  | current isCurrent => exact .current isCurrent
  | parent => exact .parent
  | entry isName heq noLink =>
    rcases reduction.entries _ _ heq with heq | ⟨before, _, heq, -⟩
    · exact .entry isName heq noLink
    · exact .entry isName heq (Entry.file_ne_link before)
  | link isName heq =>
    rcases reduction.entries _ _ heq with heq | ⟨_, _, -, hfile⟩
    · exact .link isName heq
    · cases hfile

/-! ### Whole paths -/

theorem reaches (h : Reaches fs' manner here ways n there) : Reaches fs manner here ways n there := by
  induction h with
  | done here => exact .done here
  | step free leads _ ih =>
    exact .step (barrier?_of_free reduction.closed.symm reduction.isDirectoryAt free) (reduction.step leads) ih

theorem resolve (h : fs'.resolve path = .ok place) : fs.resolve path = .ok place := by
  obtain ⟨hshort, n, hle, hne, hreaches⟩ := exists_leadsTo h
  rw [reduction.workingDirectory] at hreaches
  have hleads : LeadsTo fs path n place := ⟨hne, reduction.reaches hreaches⟩
  exact hleads.resolve_eq_ok hshort hle

theorem realPlace (h : fs'.realPlace path = .ok place) : fs.realPlace path = .ok place := by
  unfold FileSystem.realPlace at h ⊢
  split at h
  · cases h
  · next hne =>
    obtain ⟨n, hle, hreaches⟩ := exists_reaches h
    rw [reduction.workingDirectory] at hreaches
    rw [if_neg hne, (reduction.reaches hreaches).follow_eq, if_pos hle]

end Reduction

theorem Reaches.of_kept (h : Reaches fs manner here ways n there) (hclosed : fs'.closed = fs.closed)
    (hkept : ∀ place, Meets fs here ways place → Keeps fs fs' place) :
    Reaches fs' manner here ways n there := by
  induction h with
  | done here => exact .done here
  | step free leads _ ih =>
    refine .step (barrier?_of_free hclosed (fun hdirectory => ?_) free) (leads.of_kept fun isName => ?_) ?_
    · exact isDirectoryAt_of_kept hdirectory (hkept _ (.here _ _)).1
    · exact (hkept _ (.entry isName)).1
    · exact ih fun place hplace => hkept place (.onward leads hplace)

theorem Reaches.meets_end (h : Reaches fs manner here ways n there) : Meets fs here ways there := by
  induction h with
  | done here => exact .here here []
  | step _ leads _ ih => exact .onward leads ih

section Kept

variable (reduction : Reduction fs fs') (hkept : ∀ other, OnWay fs path other → Keeps fs fs' other)
include reduction hkept

/-- A path that leads somewhere leads there still when all that is on its way is kept. -/
theorem resolve_of_kept (h : fs.resolve path = .ok place) :
    fs'.resolve path = .ok place ∧ Keeps fs fs' place := by
  obtain ⟨hshort, n, hle, hne, hreaches⟩ := exists_leadsTo h
  have hleads : LeadsTo fs' path n place :=
    ⟨hne, by rw [reduction.workingDirectory]; exact hreaches.of_kept reduction.closed hkept⟩
  exact ⟨hleads.resolve_eq_ok hshort hle, hkept place hreaches.meets_end⟩

/-- And the absolute path that is found for it stays the same. -/
theorem realPlace_of_kept (h : fs.realPlace path = .ok place) :
    fs'.realPlace path = .ok place ∧ Keeps fs fs' place := by
  unfold FileSystem.realPlace at h ⊢
  split at h
  · cases h
  · next hne =>
    obtain ⟨n, hle, hreaches⟩ := exists_reaches h
    have hreaches' := hreaches.of_kept reduction.closed hkept
    rw [if_neg hne, reduction.workingDirectory, hreaches'.follow_eq, if_pos hle]
    exact ⟨rfl, hkept place hreaches.meets_end⟩

end Kept

/-! ### Files on the way -/

theorem not_isDirectoryAt_of_file {content : ByteArray} (h : fs.entry? place = some (.file content)) :
    ¬ fs.isDirectoryAt place = true := by
  rw [isDirectoryAt_iff, h]
  intro hdirectory
  cases hdirectory

theorem Reaches.of_file {content : ByteArray} (h : Reaches fs manner here ways n there)
    (hfile : fs.entry? here = some (.file content)) : ways = [] ∧ there = here := by
  cases h with
  | done => exact ⟨rfl, rfl⟩
  | step free => exact absurd (isDirectoryAt_of_free free) (not_isDirectoryAt_of_file hfile)

/-- Of all files, a path that leads somewhere meets only the one it leads to. -/
theorem Reaches.meets_file_iff {content : ByteArray} (h : Reaches fs manner here ways n there)
    (hfile : fs.entry? place = some (.file content)) : Meets fs here ways place ↔ place = there := by
  refine ⟨fun hmeets => ?_, fun heq => heq ▸ h.meets_end⟩
  induction h with
  | done here =>
    cases hmeets with
    | here => rfl
  | step free leads onward ih =>
    cases hmeets with
    | here => exact absurd (isDirectoryAt_of_free free) (not_isDirectoryAt_of_file hfile)
    | entry isName =>
      cases leads with
      | current isCurrent =>
        obtain ⟨hempty, hcurrent, -⟩ := isIdle_eq_false_iff.1 isName
        exact absurd isCurrent (not_or.2 ⟨hempty, hcurrent⟩)
      | parent => cases isName
      | entry => exact (onward.of_file hfile).2.symm
      | link _ heq => cases hfile.symm.trans heq
    | onward leads' hmeets =>
      obtain ⟨rfl, rfl, rfl⟩ := leads.unique leads'
      exact ih hmeets

theorem onWay_file_iff {content : ByteArray} {target : Place} (h : fs.resolve path = .ok target)
    (hfile : fs.entry? place = some (.file content)) : OnWay fs path place ↔ target = place := by
  obtain ⟨-, n, -, hleads⟩ := exists_leadsTo h
  rw [OnWay, hleads.reaches.meets_file_iff hfile, eq_comm]

theorem onWay_file_iff_of_realPlace {content : ByteArray} {target : Place} (h : fs.realPlace path = .ok target)
    (hfile : fs.entry? place = some (.file content)) : OnWay fs path place ↔ target = place := by
  unfold FileSystem.realPlace at h
  split at h
  · cases h
  · obtain ⟨n, -, hreaches⟩ := exists_reaches h
    rw [OnWay, hreaches.meets_file_iff hfile, eq_comm]

/-! ### Presence -/

theorem read_of_resolve {content : ByteArray} (hplace : fs.resolve path = .ok place)
    (hfile : fs.entry? place = some (.file content)) (hreadable : fs.refusal? place = none) :
    fs.read path = .ok content := by
  simp only [read, hplace, hfile, hreadable, bind, Except.bind]

theorem isPresent_iff : fs.isPresent path = true ↔
    ∃ place entry, fs.resolve path = .ok place ∧ fs.entry? place = some entry := by
  rw [isPresent, target?]
  cases fs.resolve path with
  | error e => simp
  | ok place => simp [Option.isSome_iff_exists]

theorem Reduction.isPresent (reduction : Reduction fs fs') (h : fs'.isPresent path = true) :
    fs.isPresent path = true := by
  obtain ⟨place, kept, hplace, hkept⟩ := isPresent_iff.1 h
  refine isPresent_iff.2 ⟨place, ?_⟩
  rcases reduction.entries _ _ hkept with hentry | ⟨before, _, hentry, -⟩
  · exact ⟨kept, reduction.resolve hplace, hentry⟩
  · exact ⟨.file before, reduction.resolve hplace, hentry⟩

end TemplateLint.FileSystem
