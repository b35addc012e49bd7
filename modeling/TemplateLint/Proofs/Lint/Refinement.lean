import TemplateLint.Finding.Threshold
import TemplateLint.Proofs.Lint.Recovery

/-!
# Rulesets that find parts of each other's findings

The stock rulesets are lists of rules that differ in their ends. A rule gives all its findings the
severity that it is set to, so the findings of one severity are the findings of the rules of that
severity: this makes the rules about blanks the errors among all stock rules. The version of the
language matters to the last rule alone, which asks of each removed tag whether it is gone already.

What holds of the findings in one template holds of a whole session. A syntax error is an error in both
rulesets, so a selection that keeps errors can be made before or after the sessions are run
(`Selects.lintAll`).
-/

namespace TemplateLint

/-! ### Findings of a rule -/

/-- The severity of all findings of a rule. -/
def Rule.severity : Rule → Severity
  | .delimiterSpacing rule => rule.severity
  | .trailingSpace rule => rule.severity
  | .lowerCaseVariable rule => rule.severity
  | .deprecatedTag rule => rule.severity

theorem DelimiterSpacing.severity_of_mem {rule : DelimiterSpacing} {path : String}
    {before : Option Token} {tokens : List Token} {v : Violation}
    (h : v ∈ rule.checkFrom path before tokens) : v.severity = rule.severity := by
  induction tokens generalizing before with
  | nil => simp [checkFrom] at h
  | cons token rest ih =>
    rw [checkFrom, List.mem_append] at h
    rcases h with h | h
    · have hsides : ∃ side, v = rule.finding path side token := by
        unfold checkToken at h
        split at h <;> try split at h
        all_goals simp only [List.not_mem_nil, List.mem_singleton] at h
        all_goals exact ⟨_, h⟩
      obtain ⟨side, rfl⟩ := hsides
      rfl
    · exact ih h

namespace DeprecatedTag

/-- What is said about the use of a removed tag. -/
def Removed.message (tag : Removed) : String :=
  s!"The \"{tag.name}\" tag is not available since version {tag.since}; {tag.hint}."

theorem exists_removed_of_mem {rule : DeprecatedTag} {path : String} {tokens : List Token}
    {v : Violation} (h : v ∈ rule.checkFrom path tokens) :
    v.severity = rule.severity ∧
      ∃ tag ∈ removed, tag.since ≤ rule.version ∧ v.message = tag.message := by
  induction tokens with
  | nil => simp [checkFrom] at h
  | cons token rest ih =>
    rw [checkFrom, List.mem_append, Option.mem_toList] at h
    rcases h with h | h
    · unfold checkToken at h
      split at h
      · obtain ⟨word, -, hword⟩ := Option.bind_eq_some_iff.1 h
        unfold finding? at hword
        split at hword
        · obtain ⟨tag, htag, rfl⟩ := Option.map_eq_some_iff.1 hword
          have hsince := List.find?_some htag
          rw [Bool.and_eq_true, decide_eq_true_iff] at hsince
          exact ⟨rfl, tag, List.mem_of_find?_eq_some htag, hsince.2, rfl⟩
        · cases hword
      · cases h
    · exact ih h

/-- No tag is removed before its version. -/
theorem check_of_lt {rule : DeprecatedTag} (h : ∀ tag ∈ removed, ¬ tag.since ≤ rule.version)
    (stream : TokenStream) : rule.check stream = [] := by
  rw [List.eq_nil_iff_forall_not_mem]
  intro v hv
  obtain ⟨-, tag, htag, hsince, -⟩ := exists_removed_of_mem hv
  exact h tag htag hsince

end DeprecatedTag

theorem Rule.severity_of_mem {rule : Rule} {stream : TokenStream} {v : Violation}
    (h : v ∈ rule.check stream) : v.severity = rule.severity := by
  cases rule with
  | delimiterSpacing rule => exact DelimiterSpacing.severity_of_mem h
  | trailingSpace rule =>
    obtain ⟨position, -, rfl⟩ := List.mem_map.1 h
    rfl
  | lowerCaseVariable rule =>
    obtain ⟨token, -, rfl⟩ := List.mem_map.1 h
    rfl
  | deprecatedTag rule => exact (DeprecatedTag.exists_removed_of_mem h).1

namespace Violation

/-- Whether a finding is a warning about a removed tag. -/
def isRemovedTag (v : Violation) : Bool :=
  v.severity == .warning && DeprecatedTag.removed.any fun tag => v.message == tag.message

theorem isRemovedTag_of_severity {v : Violation} (h : v.severity = .error) :
    v.isRemovedTag = false := by
  simp [isRemovedTag, h]

end Violation

theorem LowerCaseVariable.isRemovedTag_of_mem {rule : LowerCaseVariable} {stream : TokenStream}
    {v : Violation} (h : v ∈ rule.check stream) : v.isRemovedTag = false := by
  obtain ⟨token, -, rfl⟩ := List.mem_map.1 h
  -- The two messages can be told apart at the character before their last one.
  have hend : ∀ name : String,
      (s!"The \"{name}\" variable should be in lower case (use _ as a separator).").toList.reverse[1]?
        = some ')' := by
    intro name
    simp [toString]
  have hremoved : ∀ tag ∈ DeprecatedTag.removed, tag.message.toList.reverse[1]? ≠ some ')' := by
    decide +kernel
  simp only [Violation.isRemovedTag, Bool.and_eq_false_imp, List.any_eq_false, beq_iff_eq]
  intro _ tag htag hmessage
  exact hremoved tag htag (hmessage ▸ hend token.value)

theorem DeprecatedTag.isRemovedTag_of_mem {version : UInt8} {stream : TokenStream} {v : Violation}
    (h : v ∈ check { version } stream) : v.isRemovedTag = true := by
  obtain ⟨hseverity, tag, htag, -, hmessage⟩ := exists_removed_of_mem h
  have hany : (removed.any fun tag => v.message == tag.message) = true :=
    List.any_eq_true.2 ⟨tag, htag, by rw [hmessage, beq_self_eq_true]⟩
  rw [Violation.isRemovedTag, hany, hseverity]
  rfl

/-! ### Selections -/

namespace Ruleset

/-- The findings of one ruleset are selected from those of another one, and every syntax error is
selected. -/
structure Selects (keep : Violation → Bool) (wide narrow : Ruleset) : Prop where
  validate : ∀ stream, narrow.validate stream = (wide.validate stream).filter keep
  error : ∀ e : SyntaxError, keep e.toViolation = true

/-- A selection that takes all findings of a rule or none is a selection of rules. -/
theorem filter_flatMap_check {keep : Violation → Bool} (keepRule : Rule → Bool) {rules : List Rule}
    {stream : TokenStream}
    (h : ∀ rule ∈ rules, ∀ v ∈ rule.check stream, keep v = keepRule rule) :
    (rules.flatMap fun rule => rule.check stream).filter keep =
      (rules.filter keepRule).flatMap fun rule => rule.check stream := by
  induction rules with
  | nil => rfl
  | cons rule rules ih =>
    have hrule := h rule List.mem_cons_self
    rw [List.flatMap_cons, List.filter_append, ih fun r hr => h r (List.mem_cons_of_mem rule hr),
      List.filter_cons]
    cases hkeep : keepRule rule with
    | true =>
      rw [if_pos rfl, List.flatMap_cons, List.filter_eq_self.2]
      intro v hv
      rw [hrule v hv, hkeep]
    | false =>
      rw [if_neg Bool.false_ne_true, List.filter_eq_nil_iff.2, List.nil_append]
      intro v hv
      rw [hrule v hv, hkeep]
      exact Bool.false_ne_true

/-- The rules about blanks are the stock rules whose findings are errors. -/
theorem selects_whitespace (version : UInt8) :
    Selects (·.severity = .error) (ofRules "official" (officialRules version))
      (ofRules "whitespace" whitespaceRules) where
  validate stream := by
    rw [validate_ofRules, validate_ofRules, filter_flatMap_check fun rule => rule.severity = .error]
    · rfl
    · intro rule _ v hv
      rw [Rule.severity_of_mem hv]
  error _ := rfl

/-- Only the last stock rule finds removed tags. -/
theorem isRemovedTag_iff {rule : Rule} {version : UInt8} (hrule : rule ∈ officialRules version)
    {stream : TokenStream} {v : Violation} (h : v ∈ rule.check stream) :
    v.isRemovedTag = true ↔ rule.id = "deprecated-tag" := by
  simp only [officialRules, whitespaceRules, List.mem_append, List.mem_cons, List.not_mem_nil,
    or_false] at hrule
  rcases hrule with (rfl | rfl) | rfl | rfl
  · simp [Violation.isRemovedTag_of_severity (Rule.severity_of_mem h), Rule.id]
  · simp [Violation.isRemovedTag_of_severity (Rule.severity_of_mem h), Rule.id]
  · simp [LowerCaseVariable.isRemovedTag_of_mem h, Rule.id]
  · simp [DeprecatedTag.isRemovedTag_of_mem h, Rule.id]

/-- A version that still has all tags finds what a later one finds, less the removed tags. -/
theorem selects_without_removed {version : UInt8} (later : UInt8)
    (h : ∀ tag ∈ DeprecatedTag.removed, ¬ tag.since ≤ version) :
    Selects (fun v => !v.isRemovedTag) (ofRules "official" (officialRules later))
      (ofRules "official" (officialRules version)) where
  validate stream := by
    rw [validate_ofRules, validate_ofRules,
      filter_flatMap_check fun rule => rule.id ≠ "deprecated-tag"]
    · have hnone : (Rule.deprecatedTag { version }).check stream = [] := DeprecatedTag.check_of_lt h stream
      simp [officialRules, whitespaceRules, Rule.id, hnone]
    · intro rule hrule v hv
      have hiff := isRemovedTag_iff hrule hv
      grind
  error e := by
    rw [Violation.isRemovedTag_of_severity rfl]
    rfl

end Ruleset

/-- What a session would have been with only some of the findings. -/
def Session.select (keep : Violation → Bool) (session : Session) : Session :=
  ⟨session.tokenized, session.result.map (List.filter keep)⟩

namespace Linter

variable {tokenizer : Tokenizer} {keep : Violation → Bool} {wide narrow : Ruleset}

theorem block_select (h : wide.Selects keep narrow) (source : Source) :
    block tokenizer narrow source = (block tokenizer wide source).filter keep := by
  cases hread : tokenizer source with
  | ok stream => rw [block_of_ok hread, block_of_ok hread, h.validate]
  | error e =>
    have hkeep := h.error e
    rw [SyntaxError.toViolation] at hkeep
    rw [block_of_error hread, block_of_error hread, List.filter_cons_of_pos hkeep, List.filter_nil]

theorem flatMap_block_select (h : wide.Selects keep narrow) (sources : List Source) :
    sources.flatMap (block tokenizer narrow) =
      (sources.flatMap (block tokenizer wide)).filter keep := by
  rw [List.filter_flatMap]
  exact congrArg sources.flatMap (funext (block_select h))

/-- Selecting findings commutes with linting: both sessions read the same templates and end alike. -/
theorem lintAll_select (h : wide.Selects keep narrow) (mode : SyntaxErrors) (sources : List Source) :
    lintAll ⟨tokenizer, narrow, mode⟩ sources =
      (lintAll ⟨tokenizer, wide, mode⟩ sources).select keep := by
  cases mode with
  | tolerate =>
    rw [lintAll_tolerate, lintAll_tolerate, flatMap_block_select h]
    rfl
  | throw =>
    rcases reads_or_firstError tokenizer sources with hreads | ⟨before, source, behind, e, hfirst⟩
    · rw [lintAll_throw_of_reads hreads, lintAll_throw_of_reads hreads, flatMap_block_select h]
      rfl
    · rw [hfirst.lintAll_throw, hfirst.lintAll_throw]
      rfl

end Linter

/-- At the severity of errors, the errors among findings decide. -/
theorem Threshold.blocking_errors (found : List Violation) :
    (below .error).displayed .blocking (found.filter (·.severity = .error)) =
        (below .error).displayed .blocking found ∧
      (below .error).exitCode (found.filter (·.severity = .error)) = (below .error).exitCode found := by
  have hblocks : (below .error).blocks = fun v => decide (v.severity = .error) := by
    funext v
    cases hv : v.severity <;> simp [blocks, below, Severity.rank, hv]
  constructor
  · simp only [displayed, hblocks, List.filter_filter, Bool.and_self]
  · simp only [exitCode, hblocks, List.any_filter, Bool.and_self]

open Ruleset Linter in
/-- **The stock rulesets find parts of each other's findings.** In whatever version, the rules about
blanks find the errors among what all stock rules find, and fail where these fail. So if errors block,
the two decide alike. The versions before the third find the same, which is what the third one finds
without the removed tags; these are the findings of the rule about them and no others. -/
theorem lintAll_stock_rulesets (tokenizer : Tokenizer) (mode : SyntaxErrors) (sources : List Source)
    (version other : UInt8) (hversion : 1 ≤ version ∧ version ≤ 3) (hother : 1 ≤ other) :
    (∃ full blanks, official version = .ok full ∧ whitespace other = .ok blanks ∧
      let wide := (lintAll ⟨tokenizer, full, mode⟩ sources).result
      let narrow := (lintAll ⟨tokenizer, blanks, mode⟩ sources).result
      (∀ e, narrow = .error e ↔ wide = .error e) ∧
        (∀ found, wide = .ok found → narrow = .ok (found.filter (·.severity = .error))) ∧
        ∃ threshold, Threshold.named "error" = .ok threshold ∧
          narrow.map (threshold.displayed .blocking) = wide.map (threshold.displayed .blocking) ∧
          narrow.map threshold.exitCode = wide.map threshold.exitCode) ∧
    (∃ first second third, official 1 = .ok first ∧ official 2 = .ok second ∧
      official 3 = .ok third ∧
      let result := fun ruleset => (lintAll ⟨tokenizer, ruleset, mode⟩ sources).result
      result first = result second ∧
        result first = (result third).map (List.filter fun v => !v.isRemovedTag)) ∧
    (∀ rule ∈ officialRules 3, ∀ stream, ∀ v ∈ rule.check stream,
      v.isRemovedTag = true ↔ rule.id = "deprecated-tag") ∧
    ∀ e : SyntaxError, e.toViolation.isRemovedTag = false := by
  have hofficial : ∀ v : UInt8, 1 ≤ v ∧ v ≤ 3 →
      official v = .ok (ofRules "official" (officialRules v)) := fun v hv => if_pos hv
  have hwhitespace : whitespace other = .ok (ofRules "whitespace" whitespaceRules) :=
    if_neg (by rintro rfl; exact absurd hother (by decide))
  have hearly : ∀ v : UInt8, v = 1 ∨ v = 2 → ∀ tag ∈ DeprecatedTag.removed, ¬ tag.since ≤ v := by
    rintro v (rfl | rfl) <;> decide
  refine ⟨⟨_, _, hofficial version hversion, hwhitespace, ?_⟩,
    ⟨_, _, _, hofficial 1 (by decide), hofficial 2 (by decide), hofficial 3 (by decide), ?_⟩,
    fun rule hrule stream v hv => isRemovedTag_iff hrule hv,
    fun e => Violation.isRemovedTag_of_severity rfl⟩
  · intro wide narrow
    have hnarrow : narrow = wide.map (List.filter (·.severity = .error)) :=
      congrArg Session.result (lintAll_select (selects_whitespace version) mode sources)
    rw [hnarrow]
    cases wide with
    | error e => exact ⟨fun _ => Iff.rfl, nofun, _, rfl, rfl, rfl⟩
    | ok found =>
      refine ⟨fun e => by simp [Except.map], fun _ h => ?_, _, rfl, ?_, ?_⟩
      · rw [Except.ok.inj h]
        rfl
      · exact congrArg Except.ok (Threshold.blocking_errors found).1
      · exact congrArg Except.ok (Threshold.blocking_errors found).2
  · intro result
    have hfirst : result (ofRules "official" (officialRules 1)) = _ :=
      congrArg Session.result (lintAll_select (selects_without_removed 3 (hearly 1 (.inl rfl))) mode sources)
    have hsecond : result (ofRules "official" (officialRules 2)) = _ :=
      congrArg Session.result (lintAll_select (selects_without_removed 3 (hearly 2 (.inr rfl))) mode sources)
    exact ⟨hfirst.trans hsecond.symm, hfirst⟩

open Ruleset Linter in
/-- A template with an error and two warnings, and one that cannot be read. -/
theorem lintAll_stock_rulesets_two_templates :
    let sources : List Source :=
      [⟨"\x7b% set B = 1 %\x7d\x7b% filter c %\x7d \n", "/a", "a"⟩, ⟨"\x7b\x7b 1", "/b", "b"⟩]
    let blank : Violation := ⟨"a", ⟨1, 29⟩, "A line should not end with blank space(s).", .error⟩
    let name : Violation :=
      ⟨"a", ⟨1, 7⟩, "The \"B\" variable should be in lower case (use _ as a separator).", .warning⟩
    let unclosed : Violation := ⟨"b", ⟨1, 0⟩, "Unclosed \"variable\"", .error⟩
    ∃ blanks first, whitespace 7 = .ok blanks ∧ official 1 = .ok first ∧
      (lintAll ⟨tokenize, blanks, .tolerate⟩ sources).result = .ok [blank, unclosed] ∧
      (lintAll ⟨tokenize, first, .tolerate⟩ sources).result = .ok [blank, name, unclosed] := by
  intro sources blank name unclosed
  obtain ⟨⟨full, blanks, hfull, hblanks, -, herrors, -⟩,
    ⟨first, second, third, hfirst, -, hthird, -, hremoved⟩, -⟩ :=
    lintAll_stock_rulesets tokenize .tolerate sources 3 7 (by decide) (by decide)
  cases hfull
  cases hthird
  have hfound : (lintAll ⟨tokenize, ofRules "official" (officialRules 3), .tolerate⟩ sources).result =
      .ok [blank, name, ⟨"a", ⟨1, 18⟩,
        "The \"filter\" tag is not available since version 3; use the \"apply\" tag.", .warning⟩,
        unclosed] := by decide +kernel
  refine ⟨blanks, first, hblanks, hfirst, herrors _ hfound, hremoved.trans ?_⟩
  exact (congrArg (Except.map _) hfound).trans (by decide +kernel)

end TemplateLint
