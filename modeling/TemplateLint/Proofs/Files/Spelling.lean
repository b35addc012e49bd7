import TemplateLint.Proofs.Files.Links
import TemplateLint.Proofs.Files.PathOrder

/-!
# Spellings of paths

A path that is joined to another one is followed as one path in two parts: first the steps of the base,
then those of what is behind it. Single points and more slashes than one do not count for that, so paths
with the same steps lead to the same place (`reaches_of_same`).

Where a path from the root leads, the names on the way down are those of the place, and each of them but
the last is a directory's (`Reached`). So following these names leads there again, or nowhere.
-/

namespace TemplateLint

namespace Path

theorem parts_append (front behind : RawPath) :
    parts (front ++ slash :: behind) = parts front ++ parts behind := by
  rw [parts, Text.cutAt_append_cut, List.filter_append]
  rfl

theorem parts_append_slashes (n : Nat) (path : RawPath) :
    parts (path ++ List.replicate n slash) = parts path := by
  have hslashes : ∀ n, parts (List.replicate n slash) = [] := by
    intro n
    induction n with
    | zero => rfl
    | succ n ih =>
      rw [List.replicate_succ, ← List.nil_append (slash :: _), parts_append, ih]
      rfl
  cases n with
  | zero => rw [List.replicate_zero, List.append_nil]
  | succ n => rw [List.replicate_succ, parts_append, hslashes, List.append_nil]

/-! ### Joined paths -/

theorem isAbsolute_append {front : RawPath} (hne : front ≠ []) (behind : RawPath) :
    isAbsolute (front ++ behind) = isAbsolute front := by
  cases front with
  | nil => exact absurd rfl hne
  | cons b rest => rfl

theorem isAbsolute_join {base : RawPath} (h : isAbsolute base = true) (path : RawPath) :
    isAbsolute (join base path) = true := by
  have hne : base ≠ [] := by
    intro hnil
    subst hnil
    cases h
  rw [join]
  split
  · next hpath => simpa [hne] using hpath
  · split <;> rwa [isAbsolute_append hne]

section Join

variable (root : RawPath) {path : RawPath} (hrelative : isAbsolute path = false)
include hrelative

theorem join_cases : root = [] ∧ join root path = path ∨
    ∃ base, join root path = base ++ slash :: path ∧ parts base = parts root ∧
      isAbsolute (join root path) = isAbsolute root := by
  rw [join, hrelative]
  by_cases hempty : root = []
  · exact .inl ⟨hempty, by simp [hempty]⟩
  rw [if_neg (by simpa using hempty)]
  split
  · next hslash =>
    obtain ⟨front, rfl⟩ := List.getLast?_eq_some_iff.1 hslash
    refine .inr ⟨front, by simp, (parts_append_slashes 1 front).symm, isAbsolute_append hempty _⟩
  · exact .inr ⟨root, rfl, rfl, isAbsolute_append hempty _⟩

theorem origin_join (here : Place) :
    FileSystem.origin (join root path) here = FileSystem.origin root here := by
  rw [FileSystem.origin, FileSystem.origin]
  rcases join_cases root hrelative with ⟨rfl, hjoin⟩ | ⟨base, -, -, habsolute⟩
  · rw [hjoin, hrelative]
    rfl
  · rw [habsolute]

theorem parts_join : parts (join root path) = parts root ++ parts path := by
  rcases join_cases root hrelative with ⟨rfl, hjoin⟩ | ⟨base, hjoin, hbase, -⟩
  · rw [hjoin]
    rfl
  · rw [hjoin, parts_append, hbase]

theorem exists_join_eq : ∃ front, join root path = front ++ path := by
  rcases join_cases root hrelative with ⟨-, hjoin⟩ | ⟨base, hjoin, -, -⟩
  · exact ⟨[], hjoin⟩
  · exact ⟨base ++ [slash], by rw [hjoin, List.append_assoc, List.singleton_append]⟩

variable (hne : path ≠ [])
include hne

theorem join_ne_nil : join root path ≠ [] := by
  obtain ⟨front, hfront⟩ := exists_join_eq root hrelative
  rw [hfront]
  exact List.append_ne_nil_of_right_ne_nil front hne

theorem steps_join : FileSystem.steps (join root path) = parts root ++ FileSystem.steps path := by
  obtain ⟨front, hfront⟩ := exists_join_eq root hrelative
  have hlast : (join root path).getLast? = path.getLast? := by
    rw [hfront, List.getLast?_append_of_ne_nil front hne]
  rw [FileSystem.steps, FileSystem.steps, hlast, parts_join root hrelative, List.append_assoc]

end Join

/-! ### Parts of steps -/

/-- The part of a path that a step takes, if it takes one. -/
def Component.part? : Component → Option RawPath
  | .root => none
  | .current => none
  | .parent => some ".."
  | .name bytes => some bytes

theorem filterMap_innerComponents (all : List RawPath) :
    (innerComponents all).filterMap Component.part? = all.filter fun part : RawPath => part ≠ "." := by
  have hpart (part : RawPath) : (Component.ofPart part).part? = some part := by
    rw [Component.ofPart]
    split
    · next h => rw [h]; rfl
    · rfl
  rw [innerComponents, List.filterMap_map]
  simp [hpart]

theorem filterMap_components (path : RawPath) :
    (components path).filterMap Component.part? = (parts path).filter fun part : RawPath => part ≠ "." := by
  rw [components]
  split
  · exact filterMap_innerComponents _
  · split <;> exact filterMap_innerComponents _

theorem head?_components (path : RawPath) :
    (components path).head? = some .root ↔ isAbsolute path = true := by
  rw [components]
  cases isAbsolute path with
  | true => simp
  | false =>
    have hinner (all : List RawPath) : (innerComponents all).head? ≠ some .root := by
      intro hroot
      obtain ⟨part, -, hpart⟩ := List.mem_map.1 (List.mem_of_mem_head? hroot)
      rw [Component.ofPart] at hpart
      split at hpart <;> cases hpart
    rw [if_neg (by simp)]
    split
    · simp
    · simpa using hinner _

end Path

namespace FileSystem

variable {fs : FileSystem} {manner : Manner} {here there place project : Place} {root other : RawPath} {k : Nat}

/-! ### Paths with the same steps -/

theorem Reaches.without_points {ways : List RawPath} (h : Reaches fs manner here ways k there) :
    Reaches fs manner here (ways.filter fun part : RawPath => part ≠ ".") k there := by
  induction ways generalizing here k with
  | nil => exact h
  | cons name rest ih =>
    have hsplit : Reaches fs manner here ([name] ++ rest) k there := h
    obtain ⟨middle, i, j, rfl, hfirst, hrest⟩ := hsplit.of_append
    by_cases hpoint : name = "."
    · subst hpoint
      cases hfirst with
      | step _ leads onward =>
        obtain ⟨rfl, rfl, rfl⟩ := leads.of_current (.inr rfl)
        cases onward
        rw [List.filter_cons_of_neg (by simp), Nat.add_zero, Nat.zero_add]
        exact ih hrest
    · rw [List.filter_cons_of_pos (by simpa using hpoint)]
      exact hfirst.append (ih hrest)

theorem reaches_of_same (h : Path.same other root = true)
    (hway : Reaches fs manner (origin root here) (Path.parts root) k project) :
    Reaches fs manner (origin other here) ((Path.parts other).filter fun part : RawPath => part ≠ ".") k
      project := by
  rw [Path.same_iff] at h
  have habsolute : Path.isAbsolute other = Path.isAbsolute root := by
    rw [Bool.eq_iff_iff, ← Path.head?_components, h, Path.head?_components]
  rw [origin, habsolute, ← Path.filterMap_components, h, Path.filterMap_components]
  exact hway.without_points

theorem reaches_of_same_path (hvalid : ∀ name ∈ place, ValidName name)
    (h : Path.same place.path root = true)
    (hway : Reaches fs manner (origin root here) (Path.parts root) k project) :
    Reaches fs manner [] place k project := by
  have hnames : (place.filter fun part : RawPath => part ≠ ".") = place :=
    List.filter_eq_self.2 fun name hname => by simpa using (hvalid name hname).ne_current
  have hproject := reaches_of_same h hway
  rwa [origin, if_pos place.isAbsolute_path, Place.parts_path hvalid, hnames] at hproject

/-! ### Places that are reached from the root -/

/-- A place where something stands that is no link, below directories only. -/
structure Reached (fs : FileSystem) (place : Place) : Prop where
  validNames : ∀ name ∈ place, ValidName name
  stands : ∃ entry, fs.entry? place = some entry ∧ ∀ target, entry ≠ .link target
  above : ∀ front names, place = front ++ names → names ≠ [] → fs.isDirectoryAt front = true

theorem reached_nil (fs : FileSystem) : Reached fs [] where
  validNames := by simp
  stands := ⟨.directory, rfl, Entry.directory_ne_link⟩
  above := by
    intro front names hsplit hne
    exact absurd (List.append_eq_nil_iff.1 hsplit.symm).2 hne

theorem WellFormed.reached (wf : fs.WellFormed) {entry : Entry} (h : fs.entry? place = some entry)
    (hlink : ∀ target, entry ≠ .link target) : Reached fs place where
  validNames := wf.validNames h
  stands := ⟨entry, h, hlink⟩
  above := by
    intro front names hsplit hne
    rw [hsplit] at h
    exact wf.isDirectoryAt_of_append hne h

theorem Reached.of_append {behind : Place} (h : Reached fs (place ++ behind)) : Reached fs place := by
  by_cases hbehind : behind = []
  · rwa [hbehind, List.append_nil] at h
  · refine ⟨fun name hname => h.validNames name (List.mem_append_left behind hname), ?_, ?_⟩
    · exact ⟨.directory, isDirectoryAt_iff.1 (h.above place behind rfl hbehind), Entry.directory_ne_link⟩
    · intro front names hsplit hne
      refine h.above front (names ++ behind) ?_ (List.append_ne_nil_of_left_ne_nil hne behind)
      rw [hsplit, List.append_assoc]

theorem Reached.dropLast (h : Reached fs place) : Reached fs place.dropLast := by
  by_cases hne : place = []
  · subst hne
    exact h
  · rw [← List.dropLast_append_getLast hne] at h
    exact h.of_append

theorem slash_not_mem_of_mem_steps {path step : RawPath} (h : step ∈ steps path) : Path.slash ∉ step := by
  rcases List.mem_append.1 h with hpart | hslash
  · exact Text.not_mem_of_mem_cutAt (List.mem_of_mem_filter hpart)
  · split at hslash
    · rw [List.mem_singleton.1 hslash]
      exact List.not_mem_nil
    · cases hslash

/-- From a place that is reached, steps lead to one that is reached. -/
theorem Reaches.reached {ways : List RawPath} (h : Reaches fs manner here ways k there)
    (hways : ∀ step ∈ ways, Path.slash ∉ step) (hhere : Reached fs here) : Reached fs there := by
  induction h with
  | done => exact hhere
  | @step here _ _ _ _ _ _ _ free leads _ ih =>
    have hdirectory := isDirectoryAt_of_free free
    obtain ⟨hname, hrest⟩ := List.forall_mem_cons.1 hways
    cases leads with
    | current => exact ih hrest hhere
    | parent => exact ih hrest hhere.dropLast
    | @entry name held isName hheld noLink =>
      obtain ⟨hempty, hcurrent, hparent⟩ := isIdle_eq_false_iff.1 isName
      refine ih hrest ⟨?_, ⟨held, hheld, noLink⟩, fun front names hsplit hne => ?_⟩
      · intro part hpart
        rcases List.mem_append.1 hpart with hpart | hpart
        · exact hhere.validNames part hpart
        · rw [List.mem_singleton.1 hpart]
          exact ⟨hempty, hcurrent, hparent, hname⟩
      · obtain ⟨before, last, rfl⟩ := (List.eq_nil_or_concat' names).resolve_left hne
        rw [← List.append_assoc] at hsplit
        obtain ⟨rfl, -⟩ := List.append_inj' hsplit rfl
        by_cases hbefore : before = []
        · subst hbefore
          rwa [List.append_nil] at hdirectory
        · exact hhere.above front before rfl hbefore
    | @link name target =>
      refine ih (fun step hstep => ?_) ?_
      · rcases List.mem_append.1 hstep with htarget | hrest'
        · exact slash_not_mem_of_mem_steps htarget
        · exact hrest step hrest'
      · rw [origin]
        split
        · exact reached_nil fs
        · exact hhere

/-- The names on the way to a place that is reached lead there. -/
theorem Reached.eq_of_reaches (here : Place) {names : List RawPath} (h : Reached fs (here ++ names))
    (hway : Reaches fs manner here names k there) : k = 0 ∧ there = here ++ names := by
  induction names generalizing here k with
  | nil =>
    cases hway
    exact ⟨rfl, (List.append_nil _).symm⟩
  | cons name names ih =>
    have hsplit : here ++ name :: names = (here ++ [name]) ++ names := by simp
    have hname := isIdle_of_validName (h.validNames name (by simp))
    have hnolink : ∀ target, fs.entry? (here ++ [name]) ≠ some (.link target) := by
      intro target hlink
      rw [hsplit] at h
      by_cases hne : names = []
      · subst hne
        rw [List.append_nil] at h
        obtain ⟨entry, hentry, hnone⟩ := h.stands
        exact hnone target (Option.some.inj (hentry.symm.trans hlink))
      · cases (isDirectoryAt_iff.1 (h.above _ _ rfl hne)).symm.trans hlink
    rw [hsplit] at h ⊢
    cases hway with
    | step free leads onward =>
      cases leads with
      | current isCurrent =>
        rcases isCurrent with rfl | rfl <;> cases hname
      | parent => cases hname
      | entry =>
        obtain ⟨rfl, hthere⟩ := ih _ h onward
        exact ⟨rfl, hthere⟩
      | link _ hlink => exact absurd hlink (hnolink _)

/-- An open place that is reached is found by its absolute path. -/
theorem Reached.reaches_absolute (here : Place) {names : List RawPath} (h : Reached fs (here ++ names))
    (hopen : fs.IsOpen (here ++ names)) : Reaches fs .absolute here names 0 (here ++ names) := by
  induction names generalizing here with
  | nil =>
    rw [List.append_nil]
    exact .done here
  | cons name names ih =>
    have hsplit : here ++ name :: names = (here ++ [name]) ++ names := by simp
    have hname := isIdle_of_validName (h.validNames name (by simp))
    have hclosed : ¬ fs.closed.any (fun spot => spot.isPrefixOf here) = true := by
      rw [List.any_eq_true]
      intro hany
      obtain ⟨spot, hspot, hprefix⟩ := hany
      have hbelow := List.isPrefixOf_iff_prefix.1 hprefix
      have hsame := hopen.above spot hspot (hbelow.trans (List.prefix_append _ _))
      have hlength := hbelow.length_le
      rw [hsame, List.length_append, List.length_cons] at hlength
      omega
    have hshort : ¬ maxPath < (Place.path (here ++ [name])).length := by
      rw [hsplit] at hopen
      exact Nat.not_lt.2 hopen.of_append.short
    have hfree : fs.barrier? .absolute here name = none := by
      rw [barrier?, h.above here (name :: names) rfl (List.cons_ne_nil _ _), hname]
      simp only [Bool.not_true, Bool.false_eq_true, if_false]
      rw [if_neg hshort, if_neg hclosed]
    rw [hsplit] at h hopen ⊢
    obtain ⟨held, hheld, noLink⟩ := h.of_append.stands
    exact .step hfree (.entry hname hheld noLink) (ih _ h hopen)

/-- What an absolute path is found for is reached from the root. -/
theorem reached_of_realPlace (h : fs.realPlace other = .ok place) (habsolute : Path.isAbsolute other = true) :
    Reached fs place := by
  unfold realPlace at h
  split at h
  · cases h
  · rw [origin, if_pos habsolute] at h
    obtain ⟨n, -, hreaches⟩ := exists_reaches h
    exact hreaches.reached (fun step hstep => slash_not_mem_of_mem_steps hstep) (reached_nil fs)

/-- Where there is something behind a path with the steps of a place that is reached, the place is a
directory's. -/
theorem Reached.isDirectoryAt_of_same (h : Reached fs place) (hsame : Path.same place.path root = true)
    {name : RawPath} (hrelative : Path.isAbsolute name = false) (hne : name ≠ [])
    (hpresent : fs.isPresent (Path.join root name) = true) : fs.isDirectoryAt place = true := by
  cases hresolve : fs.resolve (Path.join root name) with
  | error e =>
    rw [isPresent, target?, hresolve] at hpresent
    cases hpresent
  | ok spot =>
    obtain ⟨-, n, -, hleads⟩ := exists_leadsTo hresolve
    have hreaches := hleads.reaches
    rw [Path.origin_join root hrelative, Path.steps_join root hrelative hne] at hreaches
    obtain ⟨middle, i, j, -, hfront, honward⟩ := hreaches.of_append
    obtain ⟨-, rfl⟩ := Reached.eq_of_reaches [] h (reaches_of_same_path h.validNames hsame hfront)
    cases hsteps : steps name with
    | nil => exact absurd hsteps (steps_ne_nil hne)
    | cons first rest =>
      rw [hsteps] at honward
      cases honward with
      | step free => exact isDirectoryAt_of_free free

end FileSystem

end TemplateLint
