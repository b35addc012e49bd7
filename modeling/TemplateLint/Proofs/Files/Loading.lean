import TemplateLint.Proofs.Files.Grouping
import TemplateLint.Proofs.Text.Utf8

/-!
# Loading templates

The files of all groups are one list, and loading goes through it: either every file can be read, and
there is a source for each of them in its place, or none is given and the failure is that of a file that
cannot be read. The files are read side by side, so which of several failures that is, is not known before;
whether there is one does not depend on it (`loadSources_cases`). What is in a file is never a reason to
fail, since every run of bytes says something.
-/

namespace TemplateLint

variable {fs : FileSystem}

theorem loadFile_eq_ok_iff {file : DiscoveredFile} {source : Source} :
    loadFile fs file = .ok source ↔ ∃ bytes, fs.read file.realPath = .ok bytes ∧
      source = ⟨Utf8.decodeLossy bytes, file.realPath, file.displayPath⟩ := by
  rw [loadFile]
  cases fs.read file.realPath <;> simp [eq_comm]

theorem loadFile_eq_error_iff {file : DiscoveredFile} {failure : Failure} :
    loadFile fs file = .error failure ↔ ∃ e, fs.read file.realPath = .error e ∧
      failure = .unreadable file.realPath e := by
  rw [loadFile]
  cases fs.read file.realPath <;> simp [eq_comm]

/-! ### Races -/

section Failures

variable {ε α β : Type}

theorem mem_failures_iff {e : ε} {results : List (Except ε α)} :
    e ∈ failures results ↔ .error e ∈ results := by
  rw [failures, List.mem_filterMap]
  constructor
  · intro h
    obtain ⟨result, hmem, hresult⟩ := h
    cases result with
    | error e' =>
      cases hresult
      exact hmem
    | ok a => cases hresult
  · intro h
    exact ⟨.error e, h, rfl⟩

theorem failures_map_eq_nil_iff {f : α → Except ε β} {list : List α} :
    failures (list.map f) = [] ↔ ∀ a ∈ list, ∃ b, f a = .ok b := by
  rw [List.eq_nil_iff_forall_not_mem]
  simp only [mem_failures_iff, List.mem_map, not_exists, not_and]
  constructor
  · intro h a hmem
    cases hresult : f a with
    | ok b => exact ⟨b, rfl⟩
    | error e => exact absurd hresult (h e a hmem)
  · intro h e a hmem hresult
    obtain ⟨b, hb⟩ := h a hmem
    cases hb.symm.trans hresult

end Failures

/-- Loading gives a source for each file, or else one of the failures, whichever comes first. -/
theorem loadSources_cases (fs : FileSystem) (race : Nat) (groups : List PathGroup) :
    (∃ sources, loadSources fs race groups = .ok sources ∧
      List.Forall₂ (fun file source => loadFile fs file = .ok source)
        (groups.flatMap PathGroup.files) sources) ∨
    ∃ failure file, loadSources fs race groups = .error failure ∧
      file ∈ groups.flatMap PathGroup.files ∧ loadFile fs file = .error failure := by
  generalize hfiles : groups.flatMap PathGroup.files = files
  by_cases hnone : failures (files.map (loadFile fs)) = []
  · obtain ⟨sources, hmap, hall⟩ := Discovery.exists_mapM (failures_map_eq_nil_iff.1 hnone)
    refine .inl ⟨sources, ?_, hall⟩
    simp only [loadSources, hfiles, hnone, List.getElem?_nil]
    exact hmap
  · have hlt : race % (failures (files.map (loadFile fs))).length <
        (failures (files.map (loadFile fs))).length :=
      Nat.mod_lt _ (List.length_pos_iff.2 hnone)
    have hmem := List.getElem_mem hlt
    obtain ⟨file, hfile, hfails⟩ := List.mem_map.1 (mem_failures_iff.1 hmem)
    refine .inr ⟨_, file, ?_, hfile, hfails⟩
    simp only [loadSources, hfiles, List.getElem?_eq_getElem hlt]

/-- A failure to read one of the files of groups. -/
def IsReadFailure (fs : FileSystem) (groups : List PathGroup) (failure : Failure) : Prop :=
  ∃ file ∈ groups.flatMap PathGroup.files, ∃ e, fs.read file.realPath = .error e ∧
    failure = .unreadable file.realPath e

theorem isReadFailure_of_loadSources {race : Nat} {groups : List PathGroup} {failure : Failure}
    (h : loadSources fs race groups = .error failure) : IsReadFailure fs groups failure := by
  rcases loadSources_cases fs race groups with ⟨sources, hload, -⟩ | ⟨_, file, hfails, hmem, hfile⟩
  · cases h.symm.trans hload
  · cases h.symm.trans hfails
    exact ⟨file, hmem, loadFile_eq_error_iff.1 hfile⟩

/-- Sources that are loaded in one race are loaded in any other. -/
theorem loadSources_of_race {race : Nat} {groups : List PathGroup} {sources : List Source}
    (h : loadSources fs race groups = .ok sources) (race' : Nat) :
    loadSources fs race' groups = .ok sources := by
  rcases loadSources_cases fs race groups with ⟨results, -, hall⟩ | ⟨_, _, hfails, -⟩
  · have hnone : failures ((groups.flatMap PathGroup.files).map (loadFile fs)) = [] :=
      failures_map_eq_nil_iff.2 fun file hmem => Discovery.exists_of_forall₂ hall hmem
    simp only [loadSources, hnone, List.getElem?_nil] at h ⊢
    exact h
  · cases h.symm.trans hfails

theorem Utf8.decodeLossy_toUTF8 (text : String) : Utf8.decodeLossy text.toUTF8 = text := by
  rw [Utf8.decodeLossy, Utf8.toUTF8_data, Utf8.lossy_encode]

/-- **Loading keeps every file.** Loading succeeds just if every file of the groups can be read, however
the files race. Then there is one source for each file, group by group and in the order of its group, with
both paths of the file and what its bytes say; otherwise the failure is that of one of the files that
cannot be read. A text is what its own bytes say, and other bytes say the characters that are there, with
one replacement character in the place of each ill-formed part. -/
theorem loadSources_keeps_files (fs : FileSystem) (race : Nat) (groups : List PathGroup) :
    ((∃ sources, loadSources fs race groups = .ok sources) ↔
      ∀ file ∈ groups.flatMap PathGroup.files, ∃ bytes, fs.read file.realPath = .ok bytes) ∧
    (∀ sources, loadSources fs race groups = .ok sources →
      List.Forall₂ (fun file source => ∃ bytes, fs.read file.realPath = .ok bytes ∧
        source = ⟨Utf8.decodeLossy bytes, file.realPath, file.displayPath⟩)
        (groups.flatMap PathGroup.files) sources) ∧
    (∀ failure, loadSources fs race groups = .error failure →
      ∃ file ∈ groups.flatMap PathGroup.files, ∃ e, fs.read file.realPath = .error e ∧
        failure = .unreadable file.realPath e) ∧
    (∀ text : String, Utf8.decodeLossy text.toUTF8 = text) ∧
    ∀ (bytes : ByteArray) (text : List Char),
      Utf8.Says bytes.data.toList text ↔ text = (Utf8.decodeLossy bytes).toList := by
  have hcases := loadSources_cases fs race groups
  refine ⟨⟨fun hload => ?_, fun hread => ?_⟩, fun sources hload => ?_, fun failure hload => ?_,
    Utf8.decodeLossy_toUTF8, fun bytes text => Utf8.says_iff⟩
  · intro file hmem
    obtain ⟨sources, hload⟩ := hload
    rcases hcases with ⟨results, -, hall⟩ | ⟨failure, _, hfails, -⟩
    · obtain ⟨source, hsource⟩ := Discovery.exists_of_forall₂ hall hmem
      obtain ⟨bytes, hbytes, -⟩ := loadFile_eq_ok_iff.1 hsource
      exact ⟨bytes, hbytes⟩
    · cases hload.symm.trans hfails
  · rcases hcases with ⟨sources, hload, -⟩ | ⟨failure, file, -, hmem, hfile⟩
    · exact ⟨sources, hload⟩
    · obtain ⟨bytes, hbytes⟩ := hread file hmem
      obtain ⟨e, he, -⟩ := loadFile_eq_error_iff.1 hfile
      cases hbytes.symm.trans he
  · rcases hcases with ⟨results, hresults, hall⟩ | ⟨failure, _, hfails, -⟩
    · cases hload.symm.trans hresults
      exact hall.imp fun _ _ => loadFile_eq_ok_iff.1
    · cases hload.symm.trans hfails
  · exact isReadFailure_of_loadSources hload

/-- Two groups in which no file is text throughout, and a group with a file that is missing. -/
theorem loadSources_keeps_files_broken_bytes :
    let fs : FileSystem := { entries := [(["a"], .file ⟨#[0x63, 0xE9, 0x20, 0xF0, 0x9F, 0x98]⟩),
      (["b"], .file ⟨#[0xED, 0xA0, 0x80, 0xC3, 0xA9]⟩)] }
    let groups : List PathGroup := [⟨"b", [⟨"/b", "b"⟩]⟩, ⟨".", [⟨"/a", "./a"⟩, ⟨"/b", "./b"⟩]⟩]
    let broken : List PathGroup := [⟨".", [⟨"/a", "./a"⟩, ⟨"/c", "./c"⟩]⟩]
    (∀ file ∈ groups.flatMap PathGroup.files, ∃ bytes, fs.read file.realPath = .ok bytes) ∧
      (∃ sources, loadSources fs 0 groups = .ok sources ∧
        sources.map Source.content = ["\ufffd\ufffd\ufffdé", "c\ufffd \ufffd", "\ufffd\ufffd\ufffdé"]) ∧
      loadSources fs 0 broken = .error (.unreadable "/c" .missing) := by
  intro fs groups broken
  have ha : fs.read "/a" = .ok ⟨#[0x63, 0xE9, 0x20, 0xF0, 0x9F, 0x98]⟩ := by cbv
  have hb : fs.read "/b" = .ok ⟨#[0xED, 0xA0, 0x80, 0xC3, 0xA9]⟩ := by cbv
  have hc : fs.read "/c" = .error .missing := by cbv
  have hread : ∀ file ∈ groups.flatMap PathGroup.files, ∃ bytes, fs.read file.realPath = .ok bytes := by
    simp [groups, ha, hb]
  refine ⟨hread, ?_, ?_⟩
  · obtain ⟨hiff, hsources, -⟩ := loadSources_keeps_files fs 0 groups
    obtain ⟨sources, hload⟩ := hiff.2 hread
    refine ⟨sources, hload, ?_⟩
    obtain _ | ⟨⟨_, hfirst, rfl⟩, _ | ⟨⟨_, hsecond, rfl⟩, _ | ⟨⟨_, hthird, rfl⟩, _ | _⟩⟩⟩ :=
      hsources sources hload
    cases hb.symm.trans hfirst
    cases ha.symm.trans hsecond
    cases hb.symm.trans hthird
    cbv
  · obtain ⟨hiff, -, hfails, -⟩ := loadSources_keeps_files fs 0 broken
    cases hload : loadSources fs 0 broken with
    | ok sources =>
      obtain ⟨bytes, hbytes⟩ := hiff.1 ⟨sources, hload⟩ ⟨"/c", "./c"⟩ (by simp [broken])
      cases hc.symm.trans hbytes
    | error failure =>
      obtain ⟨file, hmem, e, he, rfl⟩ := hfails failure hload
      have hfile : file = ⟨"/a", "./a"⟩ ∨ file = ⟨"/c", "./c"⟩ := by simpa [broken] using hmem
      rcases hfile with rfl | rfl
      · cases ha.symm.trans he
      · cases hc.symm.trans he
        rfl

end TemplateLint
