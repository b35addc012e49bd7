import Mathlib
import TemplateLint.Files.Walk
import TemplateLint.Proofs.Text.Lines

/-!
# Places and their paths

In a file system on a disk, every entry has a name that a path can spell, and stands in a directory.
There the path of a place says exactly which place it is: its parts are the names on the way, and
following it takes one step for each of them. So the functions that follow paths can be replaced by
those that look at places, as long as the place is not a link itself. What can still keep the path from
leading to its place is that a directory above it is closed, or that there are too many bytes in it
(`FileSystem.IsOpen`).
-/

namespace TemplateLint

namespace Text

section

variable {α : Type}

theorem joinWith_cons (cut : α) (part : List α) {parts : List (List α)} (hne : parts ≠ []) :
    joinWith cut (part :: parts) = part ++ cut :: joinWith cut parts := by
  cases parts with
  | nil => exact absurd rfl hne
  | cons next parts => rfl

theorem joinWith_append (cut : α) {front behind : List (List α)} (hfront : front ≠ [])
    (hbehind : behind ≠ []) :
    joinWith cut (front ++ behind) = joinWith cut front ++ cut :: joinWith cut behind := by
  induction front with
  | nil => exact absurd rfl hfront
  | cons first front ih =>
    by_cases hnil : front = []
    · subst hnil
      exact joinWith_cons cut first hbehind
    · rw [List.cons_append, joinWith_cons _ _ (by simp [hnil]), ih hnil, joinWith_cons _ _ hnil,
        List.append_assoc, List.cons_append]

theorem cutAt_joinWith [DecidableEq α] {cut : α} {parts : List (List α)} (hne : parts ≠ [])
    (h : ∀ part ∈ parts, cut ∉ part) : cutAt cut (joinWith cut parts) = parts := by
  induction parts with
  | nil => exact absurd rfl hne
  | cons part parts ih =>
    have hpart := h part List.mem_cons_self
    by_cases hparts : parts = []
    · subst hparts
      exact cutAt_of_not_mem hpart
    · rw [joinWith_cons _ _ hparts, cutAt_append hpart,
        ih hparts fun p hp => h p (List.mem_cons_of_mem part hp)]

end

theorem toList_intercalate (parts : List String) :
    ("/".intercalate parts).toList = joinWith '/' (parts.map String.toList) := by
  induction parts with
  | nil => rfl
  | cons part parts ih =>
    cases parts with
    | nil => simp [joinWith]
    | cons next parts =>
      rw [String.intercalate_cons_cons, String.toList_append, String.toList_append, ih,
        List.append_assoc]
      rfl

end Text

/-- A name that an entry of a directory can have. -/
structure ValidName (name : RawPath) : Prop where
  ne_nil : name ≠ []
  ne_current : name ≠ "."
  ne_parent : name ≠ ".."
  no_slash : Path.slash ∉ name

instance (name : RawPath) : Decidable (ValidName name) :=
  decidable_of_iff (name ≠ [] ∧ name ≠ "." ∧ name ≠ ".." ∧ Path.slash ∉ name)
    ⟨fun ⟨empty, current, parent, slash⟩ => ⟨empty, current, parent, slash⟩,
      fun ⟨empty, current, parent, slash⟩ => ⟨empty, current, parent, slash⟩⟩

namespace Place

variable {place : Place}

theorem path_ne_nil (place : Place) : place.path ≠ [] :=
  List.cons_ne_nil _ _

theorem isAbsolute_path (place : Place) : Path.isAbsolute place.path = true := rfl

theorem cutAt_path (hne : place ≠ []) (h : ∀ name ∈ place, ValidName name) :
    Text.cutAt Path.slash place.path = [] :: place := by
  rw [path, Text.cutAt, if_pos rfl, Text.cutAt_joinWith hne]
  intro name hname
  exact (h name hname).no_slash

theorem parts_path (h : ∀ name ∈ place, ValidName name) : Path.parts place.path = place := by
  by_cases hne : place = []
  · subst hne
    rfl
  · rw [Path.parts, cutAt_path hne h, List.filter_cons_of_neg (by simp), List.filter_eq_self]
    intro name hname
    simpa using (h name hname).ne_nil

theorem path_append (hne : place ≠ []) {names : List RawPath} (hnames : names ≠ []) :
    path (place ++ names) = place.path ++ Path.slash :: Text.joinWith Path.slash names := by
  rw [path, Text.joinWith_append _ hne hnames, path, List.cons_append]

theorem path_concat (hne : place ≠ []) (name : RawPath) :
    path (place ++ [name]) = place.path ++ Path.slash :: name :=
  path_append hne (List.cons_ne_nil name [])

theorem getLast?_path (hne : place ≠ []) (h : ∀ name ∈ place, ValidName name) :
    place.path.getLast? ≠ some Path.slash := by
  obtain ⟨front, name, rfl⟩ : ∃ front name, place = front ++ [name] :=
    ⟨_, _, (List.dropLast_append_getLast hne).symm⟩
  have hname := h name (by simp)
  have hlast : (path (front ++ [name])).getLast? = name.getLast? := by
    by_cases hfront : front = []
    · subst hfront
      exact List.getLast?_append_of_ne_nil [Path.slash] hname.ne_nil
    · rw [path_concat hfront, ← List.singleton_append, ← List.append_assoc,
        List.getLast?_append_of_ne_nil _ hname.ne_nil]
  rw [hlast]
  intro hslash
  exact hname.no_slash (List.mem_of_getLast? hslash)

theorem steps_path (hne : place ≠ []) (h : ∀ name ∈ place, ValidName name) :
    FileSystem.steps place.path = place := by
  rw [FileSystem.steps, parts_path h, if_neg (getLast?_path hne h), List.append_nil]

theorem isAbsolute_of_validName {name : RawPath} (h : ValidName name) :
    Path.isAbsolute name = false := by
  rw [Path.isAbsolute, beq_eq_false_iff_ne]
  intro hslash
  exact h.no_slash (List.mem_of_head? hslash)

/-- A name behind the path of a place is the path of the place one step down. -/
theorem join_path (h : ∀ name ∈ place, ValidName name) {name : RawPath} (hname : ValidName name) :
    Path.join place.path name = path (place ++ [name]) := by
  rw [Path.join, if_neg (by simp [isAbsolute_of_validName hname, path_ne_nil])]
  by_cases hne : place = []
  · subst hne
    rfl
  · rw [if_neg (getLast?_path hne h), path_concat hne]

theorem components_path (h : ∀ name ∈ place, ValidName name) :
    Path.components place.path = .root :: place.map .name := by
  rw [Path.components, if_pos (isAbsolute_path place), parts_path h, Path.innerComponents,
    List.filter_eq_self.2]
  · congr 1
    refine List.map_congr_left fun name hname => ?_
    rw [Path.Component.ofPart, if_neg (h name hname).ne_parent]
  · intro name hname
    simpa using (h name hname).ne_current

/-- The path of a place is no shorter than that of a place on the way to it. -/
theorem length_path_le (place names : Place) :
    place.path.length ≤ (path (place ++ names)).length := by
  by_cases hne : place = []
  · subst hne
    rw [path, path, List.length_cons, List.length_cons]
    exact Nat.succ_le_succ (Nat.zero_le _)
  · by_cases hnames : names = []
    · rw [hnames, List.append_nil]
    · rw [path_append hne hnames, List.length_append]
      exact Nat.le_add_right _ _

end Place

theorem Entry.directory_ne_link (target : RawPath) : Entry.directory ≠ .link target := by simp

theorem Entry.file_ne_link (content : ByteArray) (target : RawPath) :
    Entry.file content ≠ .link target := by simp

namespace FileSystem

/-! ### Entries -/

/-- Every entry has names that a path can spell, and stands in a directory. -/
structure WellFormed (fs : FileSystem) : Prop where
  names : ∀ spot ∈ fs.entries, spot.1 ≠ [] ∧ ∀ name ∈ spot.1, ValidName name
  parents : ∀ spot ∈ fs.entries, fs.isDirectoryAt spot.1.dropLast = true

instance (fs : FileSystem) : Decidable fs.WellFormed :=
  decidable_of_iff ((∀ spot ∈ fs.entries, spot.1 ≠ [] ∧ ∀ name ∈ spot.1, ValidName name) ∧
      ∀ spot ∈ fs.entries, fs.isDirectoryAt spot.1.dropLast = true)
    ⟨fun ⟨names, parents⟩ => ⟨names, parents⟩, fun ⟨names, parents⟩ => ⟨names, parents⟩⟩

variable {fs : FileSystem} {place here : Place} {entry : Entry}

theorem mem_entries_of_some (hne : place ≠ []) (h : fs.entry? place = some entry) :
    (place, entry) ∈ fs.entries := by
  rw [FileSystem.entry?, if_neg (by simpa using hne)] at h
  obtain ⟨before, behind, hentries, -⟩ := List.lookup_eq_some_iff.1 h
  rw [hentries]
  simp

theorem exists_entry?_iff (hne : place ≠ []) :
    (∃ entry, fs.entry? place = some entry) ↔ ∃ spot ∈ fs.entries, place = spot.1 := by
  rw [← Option.isSome_iff_exists, entry?, if_neg (by simpa using hne), List.lookup_isSome_iff]
  simp only [beq_iff_eq]

namespace WellFormed

variable (wf : fs.WellFormed)
include wf

theorem validNames (h : fs.entry? place = some entry) : ∀ name ∈ place, ValidName name := by
  by_cases hne : place = []
  · simp [hne]
  · exact (wf.names _ (mem_entries_of_some hne h)).2

theorem isDirectoryAt_dropLast (hne : place ≠ []) (h : fs.entry? place = some entry) :
    fs.isDirectoryAt place.dropLast = true :=
  wf.parents _ (mem_entries_of_some hne h)

end WellFormed

theorem isDirectoryAt_iff : fs.isDirectoryAt place = true ↔ fs.entry? place = some .directory := by
  rw [isDirectoryAt]
  cases fs.entry? place with
  | none => simp
  | some entry => cases entry <;> simp [Entry.isDirectory]

/-- On the way to an entry there are directories. -/
theorem WellFormed.isDirectoryAt_of_append (wf : fs.WellFormed) {names : Place}
    (hne : names ≠ []) (h : fs.entry? (place ++ names) = some entry) :
    fs.isDirectoryAt place = true := by
  induction names using List.reverseRecOn generalizing entry with
  | nil => exact absurd rfl hne
  | append_singleton names name ih =>
    rw [← List.append_assoc] at h
    have hparent := wf.isDirectoryAt_dropLast (by simp) h
    rw [List.dropLast_concat] at hparent
    by_cases hnames : names = []
    · rwa [hnames, List.append_nil] at hparent
    · exact ih hnames (isDirectoryAt_iff.1 hparent)

/-- What stands above an entry is a link only if it is the entry itself, and that is one. -/
theorem WellFormed.exists_entry?_of_append (wf : fs.WellFormed) {names : Place}
    (h : fs.entry? (place ++ names) = some entry) : ∃ above, fs.entry? place = some above ∧
      ((∀ target, entry ≠ .link target) → ∀ target, above ≠ .link target) := by
  by_cases hne : names = []
  · rw [hne, List.append_nil] at h
    exact ⟨entry, h, id⟩
  · exact ⟨_, isDirectoryAt_iff.1 (wf.isDirectoryAt_of_append hne h), fun _ => Entry.directory_ne_link⟩

/-! ### Following the path of a place -/

/-- No directory above a place is closed, and the path of the place is not too long. -/
structure IsOpen (fs : FileSystem) (place : Place) : Prop where
  above : ∀ spot ∈ fs.closed, spot <+: place → spot = place
  short : place.path.length ≤ maxPath

instance (fs : FileSystem) (place : Place) : Decidable (fs.IsOpen place) :=
  decidable_of_iff ((∀ spot ∈ fs.closed, spot <+: place → spot = place) ∧
      place.path.length ≤ maxPath)
    ⟨fun ⟨above, short⟩ => ⟨above, short⟩, fun ⟨above, short⟩ => ⟨above, short⟩⟩

/-- What leads to a place leads to what stands above it. -/
theorem IsOpen.of_append {names : Place} (h : fs.IsOpen (place ++ names)) : fs.IsOpen place where
  above := by
    intro spot hspot hprefix
    have hsame := h.above spot hspot (List.IsPrefix.trans hprefix (List.prefix_append _ _))
    apply hprefix.eq_of_length_le
    rw [hsame, List.length_append]
    exact Nat.le_add_right _ _
  short := (place.length_path_le names).trans h.short

theorem barrier?_stepwise {step : RawPath} (h : fs.isDirectoryAt here = true) (hstep : step ≠ []) :
    fs.barrier? .stepwise here step = if here ∈ fs.closed then some .denied else none := by
  rw [barrier?, h]
  simp [hstep]

theorem follow_name {manner : Manner} {links : Nat} {name : RawPath} {names : List RawPath}
    (hname : ValidName name) (hbarrier : fs.barrier? manner here name = none)
    (h : fs.entry? (here ++ [name]) = some entry) (hlink : ∀ target, entry ≠ .link target) :
    fs.follow manner links here (name :: names) =
      fs.follow manner links (here ++ [name]) names := by
  rw [follow, hbarrier]
  simp only [hname.ne_nil, hname.ne_current, hname.ne_parent, or_self, if_false, h]

/-- Names lead to where they say, if no directory on the way to there is closed. -/
theorem WellFormed.follow_names (wf : fs.WellFormed) (links : Nat) {names spot : Place}
    (h : fs.entry? (here ++ names) = some entry) (hlink : ∀ target, entry ≠ .link target) :
    fs.follow .stepwise links here names = .ok spot ↔ spot = here ++ names ∧
      ∀ other ∈ fs.closed, here <+: other → other <+: here ++ names → other = here ++ names := by
  induction names generalizing here with
  | nil =>
    rw [follow, List.append_nil, Except.ok.injEq, eq_comm]
    constructor
    · intro hspot
      exact ⟨hspot, fun other _ hbelow habove => habove.eq_of_length_le hbelow.length_le⟩
    · intro hspot
      exact hspot.1
  | cons name names ih =>
    have hname : ValidName name := wf.validNames h name (by simp)
    have hhere : fs.isDirectoryAt here = true := wf.isDirectoryAt_of_append (by simp) h
    have hsplit : here ++ name :: names = (here ++ [name]) ++ names := by simp
    by_cases hclosed : here ∈ fs.closed
    · rw [follow, barrier?_stepwise hhere hname.ne_nil, if_pos hclosed]
      constructor
      · intro hspot
        cases hspot
      · intro hspot
        have hsame := hspot.2 here hclosed (List.prefix_refl _) (List.prefix_append _ _)
        simp at hsame
    · rw [hsplit] at h
      obtain ⟨next, hentry, hnext⟩ := wf.exists_entry?_of_append h
      have hbarrier : fs.barrier? .stepwise here name = none := by
        rw [barrier?_stepwise hhere hname.ne_nil, if_neg hclosed]
      rw [follow_name hname hbarrier hentry (hnext hlink), ih h, ← hsplit]
      -- A closed directory below this one is also below the next one, or it is this one.
      refine and_congr_right fun _ => forall₂_congr fun other hother => ?_
      constructor
      · intro hopen hbelow habove
        obtain ⟨more, rfl⟩ := hbelow
        cases more with
        | nil => exact absurd (List.append_nil here ▸ hother) hclosed
        | cons first more =>
          rw [List.prefix_append_right_inj, List.cons_prefix_cons] at habove
          refine hopen ⟨more, by rw [habove.1, List.append_assoc, List.singleton_append]⟩ ?_
          rw [List.prefix_append_right_inj, List.cons_prefix_cons]
          exact habove
      · intro hopen hbelow habove
        exact hopen ((List.prefix_append _ _).trans hbelow) habove

/-- The path of a place leads to that place, if it leads anywhere. -/
theorem WellFormed.resolve_path_iff (wf : fs.WellFormed) (h : fs.entry? place = some entry)
    (hlink : ∀ target, entry ≠ .link target) {spot : Place} :
    fs.resolve place.path = .ok spot ↔ spot = place ∧ fs.IsOpen place := by
  rw [resolve, if_neg place.path_ne_nil, origin, if_pos place.isAbsolute_path]
  by_cases hshort : place.path.length ≤ maxPath
  · rw [if_neg (by omega)]
    by_cases hne : place = []
    · subst hne
      have hroot : fs.follow .stepwise maxLinks [] (steps (Place.path [])) = .ok [] := by
        rw [show steps (Place.path []) = [[]] from rfl, follow, follow]
        rfl
      rw [hroot, Except.ok.injEq, eq_comm]
      constructor
      · intro hspot
        exact ⟨hspot, fun other _ habove => List.prefix_nil.1 habove, hshort⟩
      · intro hspot
        exact hspot.1
    · rw [Place.steps_path hne (wf.validNames h)]
      have hnames : fs.entry? ([] ++ place) = some entry := h
      rw [wf.follow_names maxLinks hnames hlink, List.nil_append]
      refine and_congr_right fun _ => ?_
      constructor
      · intro hopen
        exact ⟨fun other hother => hopen other hother (List.nil_prefix), hshort⟩
      · intro hopen other hother _
        exact hopen.above other hother
  · rw [if_pos (by omega)]
    constructor
    · intro hspot
      cases hspot
    · intro hspot
      exact absurd hspot.2.short hshort

theorem WellFormed.resolve_path (wf : fs.WellFormed) (h : fs.entry? place = some entry)
    (hlink : ∀ target, entry ≠ .link target) (hopen : fs.IsOpen place) :
    fs.resolve place.path = .ok place :=
  (wf.resolve_path_iff h hlink).2 ⟨rfl, hopen⟩

theorem WellFormed.target?_path_iff (wf : fs.WellFormed) (h : fs.entry? place = some entry)
    (hlink : ∀ target, entry ≠ .link target) {found : Entry} :
    fs.target? place.path = some found ↔ found = entry ∧ fs.IsOpen place := by
  rw [target?]
  cases hresolve : fs.resolve place.path with
  | error e =>
    constructor
    · intro hfound
      cases hfound
    · intro hfound
      cases hresolve.symm.trans (wf.resolve_path h hlink hfound.2)
  | ok spot =>
    obtain ⟨rfl, hopen⟩ := (wf.resolve_path_iff h hlink).1 hresolve
    show fs.entry? spot = some found ↔ _
    rw [h, Option.some.injEq, eq_comm]
    constructor
    · intro hfound
      exact ⟨hfound, hopen⟩
    · intro hfound
      exact hfound.1

theorem WellFormed.isPresent_path_iff (wf : fs.WellFormed) (h : fs.entry? place = some entry)
    (hlink : ∀ target, entry ≠ .link target) :
    fs.isPresent place.path = true ↔ fs.IsOpen place := by
  rw [isPresent, Option.isSome_iff_exists]
  simp only [wf.target?_path_iff h hlink, exists_eq_left]

theorem WellFormed.isFile_path_iff (wf : fs.WellFormed) (h : fs.entry? place = some entry)
    (hlink : ∀ target, entry ≠ .link target) :
    fs.isFile place.path = true ↔ entry.isFile = true ∧ fs.IsOpen place := by
  rw [isFile, Option.any_eq_true]
  constructor
  · intro hfile
    obtain ⟨found, hfound, hfile⟩ := hfile
    obtain ⟨rfl, hopen⟩ := (wf.target?_path_iff h hlink).1 hfound
    exact ⟨hfile, hopen⟩
  · intro hfile
    exact ⟨entry, (wf.target?_path_iff h hlink).2 ⟨rfl, hfile.2⟩, hfile.1⟩

/-! ### Listing the directory at a place -/

theorem mem_insertName {name other : RawPath} {names : List RawPath} :
    name ∈ insertName other names ↔ name = other ∨ name ∈ names := by
  induction names with
  | nil => simp [insertName]
  | cons first names ih =>
    rw [insertName]
    split
    · rw [List.mem_cons]
    · split
      · next heq => simp [heq]
      · rw [List.mem_cons, ih, List.mem_cons]
        tauto

theorem mem_namesBelow_iff {name : RawPath} :
    name ∈ fs.namesBelow place ↔ ∃ entry, fs.entry? (place ++ [name]) = some entry := by
  rw [exists_entry?_iff (by simp), namesBelow]
  induction fs.entries with
  | nil => simp
  | cons spot spots ih =>
    obtain ⟨spot, held⟩ := spot
    rw [List.foldr_cons, List.exists_mem_cons_iff]
    cases hlast : spot.getLast? with
    | none =>
      have hne : place ++ [name] ≠ spot := by
        rintro rfl
        simp at hlast
      simp only [ih, hlast, hne, false_or]
    | some last =>
      have hspot : spot = spot.dropLast ++ [last] :=
        (List.dropLast_append_getLast? last hlast).symm
      simp only [hlast]
      split
      · next hbelow =>
        rw [mem_insertName, ih, hspot, hbelow]
        simp
      · next hbelow =>
        have hne : place ++ [name] ≠ spot := by
          rintro rfl
          exact hbelow List.dropLast_concat
        simp only [ih, hne, false_or]

/-- Whether a path leads to a directory, and its names can be read. -/
structure IsListable (fs : FileSystem) (place : Place) : Prop where
  isOpen : fs.IsOpen place
  readable : fs.refusal? place = none

instance (fs : FileSystem) (place : Place) : Decidable (fs.IsListable place) :=
  decidable_of_iff (fs.IsOpen place ∧ fs.refusal? place = none)
    ⟨fun ⟨isOpen, readable⟩ => ⟨isOpen, readable⟩, fun ⟨isOpen, readable⟩ => ⟨isOpen, readable⟩⟩

theorem WellFormed.list?_path_iff (wf : fs.WellFormed) (h : fs.entry? place = some entry)
    (hlink : ∀ target, entry ≠ .link target) {names : List RawPath} :
    fs.list? place.path = some names ↔
      entry = .directory ∧ fs.IsListable place ∧ names = fs.namesBelow place := by
  rw [list?]
  cases hresolve : fs.resolve place.path with
  | error e =>
    constructor
    · intro hlist
      cases hlist
    · intro hlist
      cases hresolve.symm.trans (wf.resolve_path h hlink hlist.2.1.isOpen)
  | ok spot =>
    obtain ⟨rfl, hopen⟩ := (wf.resolve_path_iff h hlink).1 hresolve
    dsimp only
    split
    · next hboth =>
      rw [Bool.and_eq_true, isDirectoryAt_iff, h, Option.some.injEq, Option.isNone_iff_eq_none] at hboth
      rw [Option.some.injEq, eq_comm]
      constructor
      · intro hnames
        exact ⟨hboth.1, ⟨hopen, hboth.2⟩, hnames⟩
      · intro hnames
        exact hnames.2.2
    · next hboth =>
      rw [Bool.and_eq_true, isDirectoryAt_iff, h, Option.some.injEq, Option.isNone_iff_eq_none] at hboth
      constructor
      · intro hnames
        cases hnames
      · intro hnames
        exact absurd ⟨hnames.1, hnames.2.1.readable⟩ hboth

end FileSystem

end TemplateLint
