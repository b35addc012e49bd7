import TemplateLint.Proofs.Lint.Findings
import TemplateLint.Proofs.Report.Checkstyle

/-!
# Which checkstyle reports are XML

XML allows most characters in a document and forbids the others in any form, entities included. Escaping
is about the five characters of markup and passes all others on, so a report is a text of XML just if
the paths and the messages in it are (`isText_render_iff`). What rules say is printable, and so is what is
said about syntax errors, except for the one message that quotes whatever character it blames. So it
depends on this character alone.
-/

namespace TemplateLint

open Report.Checkstyle

/-! ### Texts of XML -/

namespace Xml

/-- A character that XML 1.0 allows in a document. -/
def IsChar (c : Char) : Prop :=
  c ∈ ['\t', '\n', '\r'] ∨ 0x20 ≤ c.toNat ∧ c.toNat ≤ 0xD7FF ∨
    0xE000 ≤ c.toNat ∧ c.toNat ≤ 0xFFFD ∨ 0x10000 ≤ c.toNat ∧ c.toNat ≤ 0x10FFFF

instance (c : Char) : Decidable (IsChar c) :=
  inferInstanceAs (Decidable (_ ∨ _))

/-- A text that may stand in a document. -/
def IsText (text : List Char) : Prop :=
  ∀ c ∈ text, IsChar c

instance (text : List Char) : Decidable (IsText text) :=
  List.decidableBAll _ text

theorem isText_append_iff {a b : List Char} : IsText (a ++ b) ↔ IsText a ∧ IsText b :=
  List.forall_mem_append

theorem isText_cons_iff {c : Char} {text : List Char} : IsText (c :: text) ↔ IsChar c ∧ IsText text :=
  List.forall_mem_cons

theorem isText_singleton_iff {c : Char} : IsText [c] ↔ IsChar c :=
  List.forall_mem_singleton

theorem isText_flatMap_iff {α : Type} {write : α → List Char} {items : List α} :
    IsText (items.flatMap write) ↔ ∀ item ∈ items, IsText (write item) :=
  List.forall_mem_flatMap

theorem isText_of_printable {text : List Char} (h : Printable text) : IsText text := by
  intro c hc
  have hrange := h c hc
  exact .inr (.inl (by omega))

theorem isText_toString (n : Nat) : IsText (toString n).toList :=
  isText_of_printable (printable_toString n)

end Xml

open Xml

/-! ### What the report is made of -/

theorem isText_escapeChar_iff (c : Char) : IsText (escapeChar c) ↔ IsChar c := by
  unfold escapeChar
  split
  case h_6 => exact isText_singleton_iff
  all_goals decide +kernel

theorem isText_escape_iff (s : String) : IsText (escape s).toList ↔ IsText s.toList := by
  rw [escape, String.toList_ofList, isText_flatMap_iff]
  exact forall₂_congr fun c _ => isText_escapeChar_iff c

theorem isText_entryText_iff (entry : Position × Severity × String) :
    IsText (entryText entry) ↔ IsText entry.2.2.toList := by
  have hname (severity : Severity) : IsText severity.name.toList := by
    cases severity <;> decide +kernel
  have hnewline : IsText ['\n'] := by decide
  unfold entryText
  simp (disch := decide) only [isText_append_iff, isText_toString, hname, isText_escape_iff,
    hnewline, isText_of_printable, true_and, and_true]

theorem isText_fileText_iff (entries : String × List (Position × Severity × String)) :
    IsText (fileText entries) ↔
      IsText entries.1.toList ∧ ∀ entry ∈ entries.2, IsText entry.2.2.toList := by
  have hnewline : IsChar '\n' := .inl (by simp)
  have hclose : IsText "  </file>\n".toList := by decide +kernel
  unfold fileText
  simp (disch := decide) only [isText_append_iff, isText_cons_iff, isText_flatMap_iff,
    isText_entryText_iff, isText_escape_iff, hnewline, hclose, isText_of_printable, true_and, and_true]

/-- What holds of the files and the messages of all groups holds of the paths and the messages of all
findings. -/
theorem forall_groupByFile_iff {found : List Violation} {ofPath ofMessage : String → Prop} :
    (∀ group ∈ groupByFile found, ofPath group.path ∧ ∀ v ∈ group.found, ofMessage v.message) ↔
      ∀ v ∈ found, ofPath v.path ∧ ofMessage v.message := by
  have hgrouping := isGrouping_groupByFile found
  have hmem (v : Violation) : v ∈ found ↔ ∃ group ∈ groupByFile found, v ∈ group.found := by
    rw [← (perm_flatMap_groupByFile found).mem_iff, List.mem_flatMap]
  constructor
  · intro h v hv
    obtain ⟨group, hgroup, hv⟩ := (hmem v).1 hv
    obtain ⟨hpath, hmessages⟩ := h group hgroup
    exact ⟨hgrouping.path_eq group hgroup v hv ▸ hpath, hmessages v hv⟩
  · intro h group hgroup
    have hall : ∀ v ∈ group.found, ofPath v.path ∧ ofMessage v.message :=
      fun v hv => h v ((hmem v).2 ⟨group, hgroup, hv⟩)
    obtain ⟨v, hv⟩ := List.exists_mem_of_ne_nil _ (hgrouping.ne_nil group hgroup)
    exact ⟨hgrouping.path_eq group hgroup v hv ▸ (hall v hv).1, fun w hw => (hall w hw).2⟩

/-- The report is a text of XML just if the paths and the messages are. -/
theorem isText_render_iff (found : List Violation) :
    IsText (Reporter.checkstyle.render found).toList ↔
      ∀ v ∈ found, IsText v.path.toList ∧ IsText v.message.toList := by
  have hopen : IsText (["<?xml version=\"1.0\" encoding=\"UTF-8\"?>", "<checkstyle>"].flatMap
      fun line => line.toList ++ ['\n']) := by decide +kernel
  have hclose : IsText "</checkstyle>\n".toList := by decide +kernel
  have hfiles : IsText (((groupByFile found).map FileFindings.entries).flatMap fileText) ↔
      ∀ group ∈ groupByFile found,
        IsText group.path.toList ∧ ∀ v ∈ group.found, IsText v.message.toList := by
    simp only [isText_flatMap_iff, List.forall_mem_map, isText_fileText_iff, FileFindings.entries,
      Violation.entry]
  rw [toList_render, isText_append_iff, isText_append_iff, hfiles,
    ← @forall_groupByFile_iff found (fun path => IsText path.toList) fun message => IsText message.toList]
  exact ⟨fun h => h.2.1, fun h => ⟨hopen, h, hclose⟩⟩

/-! ### What is reported of a template -/

theorem isText_unexpectedCharacter_iff (c : Char) :
    IsText s!"Unexpected character \"{c}\"".toList ↔ IsChar c := by
  have hfront : IsText "Unexpected character \"".toList := isText_of_printable (by decide)
  have hback : IsText ['"'] := isText_of_printable (by decide)
  rw [toList_unexpectedCharacter, isText_append_iff, isText_append_iff]
  exact ⟨fun h => isText_singleton_iff.1 h.2.1, fun h => ⟨hfront, isText_singleton_iff.2 h, hback⟩⟩

/-- A message about a syntax error is a text of XML unless the character that it names is none of XML. -/
theorem IsFaultMessage.isText_iff {chars : List Char} {message : String}
    (h : IsFaultMessage chars message) :
    IsText message.toList ↔ ∀ c, message = s!"Unexpected character \"{c}\"" → IsChar c := by
  constructor
  · rintro htext c rfl
    exact (isText_unexpectedCharacter_iff c).1 htext
  · intro hchar
    rcases h with hprintable | ⟨c, -, -, rfl⟩
    · exact isText_of_printable hprintable
    · exact (isText_unexpectedCharacter_iff c).2 (hchar c rfl)

theorem IsFaultMessage.isText {chars : List Char} {message : String} (h : IsFaultMessage chars message)
    (hchars : IsText chars) : IsText message.toList := by
  rcases h with hprintable | ⟨c, hc, -, rfl⟩
  · exact isText_of_printable hprintable
  · exact (isText_unexpectedCharacter_iff c).2 (hchars c hc)

theorem exists_rules_of_stock {version : UInt8} {ruleset : Ruleset}
    (h : Ruleset.official version = .ok ruleset ∨ Ruleset.whitespace version = .ok ruleset) :
    ∃ name rules, ruleset = .ofRules name rules := by
  unfold Ruleset.official Ruleset.whitespace at h
  rcases h with h | h
  · split at h
    · exact ⟨_, _, (Except.ok.inj h).symm⟩
    · cases h
  · split at h
    · cases h
    · exact ⟨_, _, (Except.ok.inj h).symm⟩

theorem isText_of_rule (rule : Rule) {source : Source} {stream : TokenStream}
    (hread : tokenize source = .ok stream) (hpath : IsText source.displayPath.toList) :
    ∀ v ∈ rule.check stream, IsText v.path.toList ∧ IsText v.message.toList := by
  intro v hv
  obtain ⟨hsame, hmessage⟩ := rule.printable_check_of_tokenize hread v hv
  exact ⟨hsame ▸ hpath, isText_of_printable hmessage⟩

/-- **Only the character that is blamed can spoil the report.** Let a template be linted with stock rules,
let syntax errors be tolerated, and let XML allow the characters of the path. The checkstyle report on the
findings is a text of XML, unless the template cannot be read because of an unexpected character that XML
does not allow. So a template with characters of XML has a report of XML. -/
theorem checkstyle_isText_iff {version : UInt8} {ruleset : Ruleset}
    (hruleset : Ruleset.official version = .ok ruleset ∨ Ruleset.whitespace version = .ok ruleset)
    {source : Source} (hpath : IsText source.displayPath.toList) :
    ∃ found, (Linter.lintSource ⟨tokenize, ruleset, .tolerate⟩ source).result = .ok found ∧
      (IsText (Reporter.checkstyle.render found).toList ↔
        ∀ e c, tokenize source = .error e → e.message = s!"Unexpected character \"{c}\"" → IsChar c) ∧
      (IsText source.content.toList → IsText (Reporter.checkstyle.render found).toList) := by
  obtain ⟨name, rules, rfl⟩ := exists_rules_of_stock hruleset
  refine ⟨_, congrArg Session.result (Linter.lintSource_tolerate source), ?_⟩
  rw [isText_render_iff]
  cases hread : tokenize source with
  | ok stream =>
    rw [Linter.block_of_ok hread, Ruleset.validate_ofRules, List.forall_mem_flatMap]
    have hfound := fun rule (_ : rule ∈ rules) => isText_of_rule rule hread hpath
    exact ⟨iff_of_true hfound nofun, fun _ => hfound⟩
  | error e =>
    obtain ⟨hsame, -, hmessage⟩ := error_of_tokenize hread
    have hpath' : IsText e.path.toList := hsame ▸ hpath
    rw [Linter.block_of_error hread, List.forall_mem_singleton, and_iff_right hpath']
    refine ⟨hmessage.isText_iff.trans ⟨?_, fun hchar c => hchar e c rfl⟩, hmessage.isText⟩
    rintro hchar e' c ⟨⟩
    exact hchar c

/-- A character that is blamed and that XML allows. -/
theorem checkstyle_isText_iff_section_sign :
    let source : Source := ⟨"\x7b\x7b § \x7d\x7d", "/t/a", "a"⟩
    ∃ ruleset found, Ruleset.official 3 = .ok ruleset ∧ IsText source.displayPath.toList ∧
      (Linter.lintSource ⟨tokenize, ruleset, .tolerate⟩ source).result = .ok found ∧
      found = [⟨"a", ⟨1, 3⟩, "Unexpected character \"§\"", .error⟩] ∧
      IsText (Reporter.checkstyle.render found).toList := by
  intro source
  have hruleset : Ruleset.official 3 = .ok (.ofRules "official" (Ruleset.officialRules 3)) := rfl
  have hpath : IsText source.displayPath.toList := by decide +kernel
  obtain ⟨found, hfound, -, htext⟩ := checkstyle_isText_iff (.inl hruleset) hpath
  have hlint : (Linter.lintSource
      ⟨tokenize, .ofRules "official" (Ruleset.officialRules 3), .tolerate⟩ source).result =
        .ok [⟨"a", ⟨1, 3⟩, "Unexpected character \"§\"", .error⟩] := by decide +kernel
  refine ⟨_, found, hruleset, hpath, hfound, Except.ok.inj (hfound.symm.trans hlint), htext ?_⟩
  decide +kernel

/-- A control character in a tag gets into the report, where XML has no place for it. -/
theorem checkstyle_control_character :
    ¬ ∀ (version : UInt8) (ruleset : Ruleset) (source : Source) (found : List Violation),
      (Ruleset.official version = .ok ruleset ∨ Ruleset.whitespace version = .ok ruleset) →
        IsText source.displayPath.toList →
        (Linter.lintSource ⟨tokenize, ruleset, .tolerate⟩ source).result = .ok found →
        IsText (Reporter.checkstyle.render found).toList := by
  intro hall
  let source : Source := ⟨"\x7b\x7b \x01 \x7d\x7d", "/t/a", "a"⟩
  let found : List Violation := [⟨"a", ⟨1, 3⟩, "Unexpected character \"\x01\"", .error⟩]
  have hruleset : Ruleset.official 3 = .ok (.ofRules "official" (Ruleset.officialRules 3)) := rfl
  have hpath : IsText source.displayPath.toList := by decide +kernel
  have hfound : (Linter.lintSource
      ⟨tokenize, .ofRules "official" (Ruleset.officialRules 3), .tolerate⟩ source).result = .ok found := by
    decide +kernel
  have hreport := hall 3 _ source found (.inl hruleset) hpath hfound
  have hmessage := ((isText_render_iff found).1 hreport _ List.mem_cons_self).2
  exact absurd hmessage (by decide +kernel)

end TemplateLint
