import TemplateLint.Proofs.Lint.Recovery
import TemplateLint.Proofs.Rule.Places
import TemplateLint.Proofs.Template.Diagnosis
import TemplateLint.Report

/-!
# Findings lead to a place

A finding is there to be followed: by its path to a template, by its line and column to a character,
and by its message, which an editor expects on one line. Places of rules are settled by the order of
tokens and places of syntax errors by the item at fault.

Messages quote the template, and a template may have line breaks in many places. But no rule quotes
text, blanks or strings, so what rules say is printable. Of the messages about syntax errors one quotes
any character: the one that is blamed for standing in a tag, which is not a blank one. So a line break
never gets into a message, and the report for editors has its findings line by line.
-/

namespace TemplateLint

open Position (places)

/-! ### What rules say -/

theorem Token.mem_atEach {α : Type} {f : Token → List Token → List α} {x : α}
    {tokens : List Token} (h : x ∈ Token.atEach f tokens) :
    ∃ t rest, x ∈ f t rest ∧ rest.Sublist tokens := by
  induction tokens with
  | nil => cases h
  | cons t rest ih =>
    rcases List.mem_append.1 h with hfirst | hmore
    · exact ⟨t, rest, hfirst, List.sublist_cons_self t rest⟩
    · obtain ⟨u, ahead, hx, hsub⟩ := ih hmore
      exact ⟨u, ahead, hx, hsub.cons t⟩

/-- A finding is reported under a path and its message is on one line. -/
def Violation.Legible (path : String) (v : Violation) : Prop :=
  v.path = path ∧ OneLine v.message.toList

/-- A finding is reported under a path and its message is printable. -/
def Violation.Printable (path : String) (v : Violation) : Prop :=
  v.path = path ∧ TemplateLint.Printable v.message.toList

theorem Violation.Printable.legible {path : String} {v : Violation} (h : v.Printable path) :
    v.Legible path :=
  ⟨h.1, h.2.oneLine⟩

namespace DelimiterSpacing

theorem printable_finding (rule : DelimiterSpacing) (path : String) {side : String} {t : Token}
    (hside : Printable side.toList) (ht : Printable t.value.toList) :
    (rule.finding path side t).Printable path := by
  refine ⟨rfl, ?_⟩
  simp only [finding, String.toList_append, printable_append_iff, and_assoc]
  exact ⟨by decide, printable_toString rule.spaces, by decide, hside, by decide, ht, by decide⟩

theorem printable_checkToken (rule : DelimiterSpacing) (path : String) (before behind : Option Token)
    {t : Token} (ht : t.kind.isFree = false → Printable t.value.toList) :
    ∀ v ∈ rule.checkToken path before t behind, v.Printable path := by
  intro v hv
  unfold checkToken at hv
  have hfinding : ∀ side, Printable side.toList → t.kind.isFree = false →
      v = rule.finding path side t → v.Printable path := by
    rintro side hside hkind rfl
    exact rule.printable_finding path hside (ht hkind)
  -- The four delimiters of tags have one finding at most, and tokens of other kinds have none.
  split at hv
  case h_5 => cases hv
  all_goals
    next hkind =>
    split at hv
    · cases hv
    · exact hfinding _ (by decide) (by rw [hkind]; rfl) (List.mem_singleton.1 hv)

theorem printable_checkFrom (rule : DelimiterSpacing) (path : String) (before : Option Token)
    {tokens : List Token} (h : ∀ t ∈ tokens, t.kind.isFree = false → Printable t.value.toList) :
    ∀ v ∈ rule.checkFrom path before tokens, v.Printable path := by
  induction tokens generalizing before with
  | nil => simp [checkFrom]
  | cons t rest ih =>
    rw [List.forall_mem_cons] at h
    rw [checkFrom, List.forall_mem_append]
    exact ⟨rule.printable_checkToken path before rest.head? h.1, ih (some t) h.2⟩

end DelimiterSpacing

namespace LowerCaseVariable

theorem kind_of_mem_declared {t : Token} {tokens : List Token} (h : t ∈ declared tokens) :
    t.kind = .name := by
  induction tokens with
  | nil => cases h
  | cons u rest ih =>
    rw [declared] at h
    split at h
    · next hname =>
      rcases List.mem_cons.1 h with rfl | hmore
      · exact beq_iff_eq.1 hname
      · exact ih hmore
    · split at h
      · exact ih h
      · cases h

theorem kind_of_mem_targets {t u : Token} {rest : List Token} (h : u ∈ targets t rest) :
    u.kind = .name := by
  unfold targets at h
  split at h
  · split at h
    · split at h
      · exact kind_of_mem_declared h
      · cases h
    · cases h
  · cases h

theorem mem_of_mem_allTargets {t : Token} {tokens : List Token} (h : t ∈ allTargets tokens) :
    t ∈ tokens ∧ t.kind = .name := by
  rw [allTargets_eq_atEach] at h
  obtain ⟨u, rest, ht, hrest⟩ := Token.mem_atEach h
  have hmem := (targets_sublist u rest).subset ht
  exact ⟨hrest.subset ((List.takeWhile_sublist _).subset hmem), kind_of_mem_targets ht⟩

end LowerCaseVariable

namespace DeprecatedTag

theorem printable_finding? (rule : DeprecatedTag) (path : String) {word : Token} {v : Violation}
    (h : rule.finding? path word = some v) : v.Printable path := by
  unfold finding? at h
  split at h
  · obtain ⟨tag, htag, rfl⟩ := Option.map_eq_some_iff.1 h
    have htable : ∀ tag ∈ removed, Printable
        s!"The \"{tag.name}\" tag is not available since version {tag.since}; {tag.hint}.".toList := by
      decide +kernel
    exact ⟨rfl, htable tag (List.mem_of_find?_eq_some htag)⟩
  · cases h

theorem printable_checkToken (rule : DeprecatedTag) (path : String) {t : Token} {rest : List Token}
    {v : Violation} (h : rule.checkToken path t rest = some v) : v.Printable path := by
  unfold checkToken at h
  split at h
  · obtain ⟨word, -, hword⟩ := Option.bind_eq_some_iff.1 h
    exact rule.printable_finding? path hword
  · cases h

end DeprecatedTag

/-- A rule reports under the path of the tokens. If only text, blanks and strings have characters in
them that are not printable, its messages have none. -/
theorem Rule.printable_check (rule : Rule) {stream : TokenStream}
    (h : ∀ t ∈ stream.tokens, t.kind.isFree = false → Printable t.value.toList) :
    ∀ v ∈ rule.check stream, v.Printable stream.path := by
  intro v hv
  cases rule with
  | delimiterSpacing r => exact r.printable_checkFrom stream.path none h v hv
  | trailingSpace r =>
    obtain ⟨position, -, rfl⟩ := List.mem_map.1 hv
    exact ⟨rfl, show Printable "A line should not end with blank space(s).".toList by decide⟩
  | lowerCaseVariable r =>
    obtain ⟨t, ht, rfl⟩ := List.mem_map.1 hv
    obtain ⟨hmem, hkind⟩ := LowerCaseVariable.mem_of_mem_allTargets (List.mem_of_mem_filter ht)
    refine ⟨rfl, ?_⟩
    simp only [String.toList_append, printable_append_iff, and_assoc]
    exact ⟨by decide, h t hmem (by rw [hkind]; rfl), by decide⟩
  | deprecatedTag r =>
    simp only [check, DeprecatedTag.check, DeprecatedTag.checkFrom_eq_atEach] at hv
    obtain ⟨t, rest, hv, -⟩ := Token.mem_atEach hv
    exact r.printable_checkToken stream.path (Option.mem_toList.1 hv)

theorem Rule.printable_check_of_tokenize (rule : Rule) {source : Source} {stream : TokenStream}
    (h : tokenize source = .ok stream) :
    ∀ v ∈ rule.check stream, v.Printable source.displayPath := by
  obtain ⟨lexemes, hscan, rfl⟩ := scan_of_tokenize h
  have htemplate := isTemplate_of_scan hscan
  rw [rule.check_locate _ htemplate]
  apply rule.printable_check
  intro t ht hkind
  obtain ⟨l, hl, hsame, hvalue⟩ := Lexeme.mem_tokens ht
  rw [hsame] at hkind
  rw [hvalue, String.toList_ofList]
  intro c hc
  have hgraphic := htemplate.isVisible l hl hkind c hc
  simp only [isGraphic, Bool.and_eq_true, decide_eq_true_eq] at hgraphic
  omega

/-! ### What syntax errors say -/

theorem toList_unexpectedCharacter (c : Char) :
    s!"Unexpected character \"{c}\"".toList = "Unexpected character \"".toList ++ ([c] ++ ['"']) := by
  have htoList : (toString c).toList = [c] := by
    show (String.singleton c).toList = [c]
    simp
  rw [String.toList_append, String.toList_append, htoList, List.append_assoc]
  rfl

theorem oneLine_of_not_isBlank {c : Char} (h : isBlank c = false) : OneLine [c] := by
  simp only [OneLine, List.mem_singleton]
  constructor
  all_goals
    rintro rfl
    exact absurd h (by decide)

/-- A message is printable, or names a character of the template that is not blank. -/
def IsFaultMessage (chars : List Char) (message : String) : Prop :=
  Printable message.toList ∨
    ∃ c ∈ chars, isBlank c = false ∧ message = s!"Unexpected character \"{c}\""

theorem IsFaultMessage.oneLine {chars : List Char} {message : String} (h : IsFaultMessage chars message) :
    OneLine message.toList := by
  rcases h with hprintable | ⟨c, -, hblank, rfl⟩
  · exact hprintable.oneLine
  · rw [toList_unexpectedCharacter, oneLine_append_iff, oneLine_append_iff]
    exact ⟨by decide, oneLine_of_not_isBlank hblank, by decide⟩

theorem Diagnosis.isFaultMessage {chars : List Char} {start offset : Nat} {message : String}
    (h : Diagnosis chars start offset message) : IsFaultMessage chars message := by
  cases h with
  | comment => exact .inl (by decide)
  | variableTag => exact .inl (by decide)
  | blockTag => exact .inl (by decide)
  | string => exact .inl (by decide)
  | unclosed hc =>
    simp only [List.mem_cons, List.not_mem_nil, or_false] at hc
    rcases hc with rfl | rfl | rfl <;> exact .inl (by decide)
  | unexpected hc =>
    simp only [List.mem_cons, List.not_mem_nil, or_false] at hc
    rcases hc with rfl | rfl | rfl <;> exact .inl (by decide)
  | character hblank hget => exact .inr ⟨_, List.mem_of_getElem? hget, hblank, rfl⟩

/-- The fault of a template is at one of its characters. -/
theorem fault_of_scan {chars : List Char} {located : LocatedFault}
    (h : scan .text 0 chars = .error located) :
    located.offset < chars.length ∧ IsFaultMessage chars located.fault.message := by
  obtain ⟨lexemes, next, rfl, -, ⟨mark, -, hstarts⟩, hfits⟩ := exists_item_of_fault h
  have hne : next ≠ [] := by
    rintro rfl
    simp at hstarts
  obtain ⟨-, hlt, hdiagnosis⟩ := hfits.diagnosis hne
  exact ⟨hlt, hdiagnosis.isFaultMessage⟩

theorem error_of_tokenize {source : Source} {e : SyntaxError} (h : tokenize source = .error e) :
    e.path = source.displayPath ∧ e.position ∈ places Position.start source.content.toList ∧
      IsFaultMessage source.content.toList e.message := by
  cases hscan : scan .text 0 source.content.toList with
  | ok lexemes =>
    rw [tokenize_of_scan hscan] at h
    cases h
  | error located =>
    rw [tokenize_of_fault hscan] at h
    cases h
    obtain ⟨hlt, hmessage⟩ := fault_of_scan hscan
    exact ⟨rfl, Position.mem_places_iff.2 ⟨_, hlt, rfl⟩, hmessage⟩

/-! ### Findings about one template -/

/-- A finding that leads to a character of a template: it has the path of the template and the line and
column of one of its characters, and its message is on one line. -/
structure Violation.Usable (source : Source) (v : Violation) : Prop where
  path : v.path = source.displayPath
  place : ∃ offset < source.content.length,
    v.position.line = 1 + (source.content.toList.take offset).count '\n' ∧
      v.position.column = (Position.lastLine (source.content.toList.take offset)).length
  message : OneLine v.message.toList

theorem Violation.Legible.usable {source : Source} {v : Violation} (hlegible : v.Legible source.displayPath)
    (hplace : v.position ∈ places Position.start source.content.toList) : v.Usable source := by
  obtain ⟨offset, hlt, hposition⟩ := Position.mem_places_iff.1 hplace
  rw [String.length_toList] at hlt
  have hcounts := hposition.trans (Position.after_eq_counts _)
  exact ⟨hlegible.1, ⟨offset, hlt, by rw [hcounts], by rw [hcounts]⟩, hlegible.2⟩

theorem usable_of_tokenize_error {source : Source} {e : SyntaxError} (severity : Severity)
    (h : tokenize source = .error e) :
    Violation.Usable source ⟨e.path, e.position, e.message, severity⟩ := by
  obtain ⟨hpath, hplace, hmessage⟩ := error_of_tokenize h
  exact Violation.Legible.usable ⟨hpath, hmessage.oneLine⟩ hplace

theorem Rule.usable_of_tokenize (rule : Rule) {source : Source} {stream : TokenStream}
    (h : tokenize source = .ok stream) : ∀ v ∈ rule.check stream, v.Usable source := by
  intro v hv
  have hplaces := (rule.positions_sublist_of_tokenize h).subset
  exact (rule.printable_check_of_tokenize h v hv).legible.usable (hplaces (List.mem_map_of_mem hv))

theorem Rule.increasing_of_tokenize (rule : Rule) {source : Source} {stream : TokenStream}
    (h : tokenize source = .ok stream) :
    (rule.check stream).Pairwise fun v w => v.position < w.position := by
  rw [← List.pairwise_map]
  exact (Position.pairwise_places _ _).sublist (rule.positions_sublist_of_tokenize h)

theorem Linter.usable_block (name : String) (rules : List Rule) (source : Source) :
    ∀ v ∈ Linter.block tokenize (.ofRules name rules) source, v.Usable source := by
  intro v hv
  cases hread : tokenize source with
  | ok stream =>
    rw [Linter.block_of_ok hread, Ruleset.validate_ofRules] at hv
    obtain ⟨rule, -, hv⟩ := List.mem_flatMap.1 hv
    exact rule.usable_of_tokenize hread v hv
  | error e =>
    rw [Linter.block_of_error hread, List.mem_singleton] at hv
    rw [hv]
    exact usable_of_tokenize_error .error hread

/-! ### The report for editors -/

theorem Violation.Usable.findingLine {source : Source} {v : Violation} (h : v.Usable source)
    (hpath : '\n' ∉ source.displayPath.toList) :
    '\n' ∉ (Report.Emacs.findingLine v).toList := by
  have hseverity : '\n' ∉ v.severity.name.toList := by
    cases v.severity <;> decide
  simp only [Report.Emacs.findingLine, String.toList_append, List.mem_append, not_or, h.path, and_assoc]
  exact ⟨hpath, by decide, (oneLine_toString _).1, by decide, (oneLine_toString _).1, by decide,
    hseverity, by decide, h.message.1⟩

/-- **Every finding leads to a place.** Whatever template is linted with whatever rules, if syntax errors
are tolerated: its findings have its path, the line and column of one of its characters, and a message on
one line. Each rule has its findings in ascending order, none of them twice. So the report for editors
on findings about any templates has them line by line, if only the paths have no line feeds. -/
theorem findings_usable (name : String) (rules : List Rule) :
    let linter : Linter := ⟨tokenize, .ofRules name rules, .tolerate⟩
    (∀ source, ∃ found, (linter.lintSource source).result = .ok found ∧ ∀ v ∈ found, v.Usable source) ∧
      (∀ source stream, tokenize source = .ok stream →
        (linter.lintSource source).result = .ok (rules.flatMap fun rule => rule.check stream) ∧
          ∀ rule ∈ rules, (rule.check stream).Pairwise (fun v w => v.position < w.position) ∧
            (rule.check stream).Nodup) ∧
      ∀ shown : List Violation,
        (∀ v ∈ shown, ∃ source found, (linter.lintSource source).result = .ok found ∧ v ∈ found ∧
          '\n' ∉ source.displayPath.toList) →
        Text.cutAt '\n' (Reporter.emacs.render shown).toList =
          shown.map (fun v => (Report.Emacs.findingLine v).toList) ++ [[]] := by
  intro linter
  have hlint : ∀ source, (linter.lintSource source).result =
      .ok (Linter.block tokenize (.ofRules name rules) source) := fun source =>
    congrArg Session.result (Linter.lintSource_tolerate source)
  refine ⟨fun source => ⟨_, hlint source, Linter.usable_block name rules source⟩, ?_, ?_⟩
  · intro source stream hread
    refine ⟨?_, fun rule _ => ?_⟩
    · rw [hlint, Linter.block_of_ok hread, Ruleset.validate_ofRules]
    · have hincreasing := rule.increasing_of_tokenize hread
      refine ⟨hincreasing, hincreasing.imp fun {v w} hlt heq => ?_⟩
      rw [heq] at hlt
      exact Position.lt_irrefl _ hlt
  · intro shown hshown
    have hlines : ∀ line ∈ Report.Emacs.lines shown, '\n' ∉ line.toList := by
      intro line hline
      obtain ⟨v, hv, rfl⟩ := List.mem_map.1 hline
      obtain ⟨source, found, hfound, hmem, hpath⟩ := hshown v hv
      rw [hlint] at hfound
      cases hfound
      exact (Linter.usable_block name rules source v hmem).findingLine hpath
    have hcut := cutAt_unlines hlines
    rw [Report.Emacs.lines, List.map_map] at hcut
    exact hcut

/-- Findings of three rules about one template, and the syntax error of another. -/
theorem findings_usable_two_templates :
    let rules := Ruleset.officialRules 3
    let linter : Linter := ⟨tokenize, .ofRules "official" rules, .tolerate⟩
    let first : Source := ⟨"a \n\x7b% filter x%\x7d", "/t/a", "a"⟩
    let second : Source := ⟨"b\n\x7b\x7b ; \x7d\x7d", "/t/b", "b"⟩
    let found : List Violation :=
      [⟨"a", ⟨2, 11⟩, "There should be 1 space(s) before \"%\x7d\".", .error⟩,
        ⟨"a", ⟨1, 1⟩, "A line should not end with blank space(s).", .error⟩,
        ⟨"a", ⟨2, 3⟩, "The \"filter\" tag is not available since version 3; use the \"apply\" tag.",
          .warning⟩]
    let error : Violation := ⟨"b", ⟨2, 3⟩, "Unexpected character \";\"", .error⟩
    (linter.lintSource first).result = .ok found ∧ (linter.lintSource second).result = .ok [error] ∧
      error.Usable second ∧
      (Text.cutAt '\n' (Reporter.emacs.render (found ++ [error])).toList).length = 5 := by
  intro rules linter first second found error
  have hfirst : (linter.lintSource first).result = .ok found := by decide +kernel
  have hsecond : (linter.lintSource second).result = .ok [error] := by decide +kernel
  obtain ⟨husable, -, hreport⟩ := findings_usable "official" rules
  obtain ⟨other, hother, hall⟩ := husable second
  have hsame : other = [error] := Except.ok.inj (hother.symm.trans hsecond)
  have hshown : ∀ v ∈ found ++ [error], ∃ source found, (linter.lintSource source).result = .ok found ∧
      v ∈ found ∧ '\n' ∉ source.displayPath.toList := by
    intro v hv
    rcases List.mem_append.1 hv with hv | hv
    · exact ⟨first, found, hfirst, hv, by decide⟩
    · exact ⟨second, [error], hsecond, hv, by decide⟩
  refine ⟨hfirst, hsecond, hall error (by simp [hsame]), ?_⟩
  rw [hreport _ hshown]
  rfl

end TemplateLint
