import Mathlib.Data.List.Basic
import TemplateLint.Lint

/-!
# Strict and tolerant linting

When syntax errors are tolerated, every template has a block of findings of its own, and a session is
the blocks one after the other. A strict session keeps no record of its own: as long as the templates
can be read it collects the same blocks, and the first template that cannot be read ends it. So the two
sessions part at one place only, and the error that ends the one is a finding at that place of the
other.

`lintAll_append_of_reads` has the whole argument: templates that can be read may be taken off the front
of a strict session, whatever comes behind them.
-/

namespace TemplateLint

namespace Ruleset

variable (name : String) (stream : TokenStream)

theorem foldl_checks (checks : List (TokenStream → List Violation)) (found : List Violation) :
    checks.foldl (fun found check => found ++ check stream) found =
      found ++ (checks.map fun check => check stream).flatten := by
  induction checks generalizing found with
  | nil => simp
  | cons check checks ih => rw [List.foldl_cons, ih, List.map_cons, List.flatten_cons, List.append_assoc]

theorem validate_ofChecks (checks : List (TokenStream → List Violation)) :
    (ofChecks name checks).validate stream = (checks.map fun check => check stream).flatten :=
  foldl_checks stream checks []

theorem validate_ofRules (rules : List Rule) :
    (ofRules name rules).validate stream = rules.flatMap fun rule => rule.check stream := by
  rw [ofRules, validate_ofChecks, List.map_map]
  rfl

end Ruleset

namespace Linter

variable (tokenizer : Tokenizer) (ruleset : Ruleset)

/-- The findings about one template if it cannot stop the others: what the ruleset finds in it, or the
syntax error at the highest severity. -/
def block (source : Source) : List Violation :=
  match tokenizer source with
  | .ok stream => ruleset.validate stream
  | .error e => [⟨e.path, e.position, e.message, .error⟩]

variable {tokenizer ruleset}

theorem block_of_ok {source : Source} {stream : TokenStream} (h : tokenizer source = .ok stream) :
    block tokenizer ruleset source = ruleset.validate stream := by
  simp only [block, h]

theorem block_of_error {source : Source} {e : SyntaxError} (h : tokenizer source = .error e) :
    block tokenizer ruleset source = [⟨e.path, e.position, e.message, .error⟩] := by
  simp only [block, h]

/-! ### One template -/

theorem lintSource_tolerate (source : Source) :
    lintSource ⟨tokenizer, ruleset, .tolerate⟩ source = ⟨[source], .ok (block tokenizer ruleset source)⟩ := by
  cases hread : tokenizer source with
  | ok stream => simp only [lintSource, block, hread]
  | error e => simp only [lintSource, block, hread, SyntaxError.toViolation]

theorem lintSource_of_ok {source : Source} {stream : TokenStream} (mode : SyntaxErrors)
    (h : tokenizer source = .ok stream) :
    lintSource ⟨tokenizer, ruleset, mode⟩ source = ⟨[source], .ok (block tokenizer ruleset source)⟩ := by
  simp only [lintSource, block, h]

theorem lintSource_throw_of_error {source : Source} {e : SyntaxError}
    (h : tokenizer source = .error e) :
    lintSource ⟨tokenizer, ruleset, .throw⟩ source = ⟨[source], .error e⟩ := by
  simp only [lintSource, h]

/-! ### All templates -/

theorem lintAll_cons_of_ok {linter : Linter} {source : Source} {found : List Violation}
    (h : linter.lintSource source = ⟨[source], .ok found⟩) (rest : List Source) :
    linter.lintAll (source :: rest) =
      ⟨source :: (linter.lintAll rest).tokenized, (linter.lintAll rest).result.map (found ++ ·)⟩ := by
  simp only [lintAll, h, List.singleton_append]

theorem lintAll_cons_of_error {linter : Linter} {source : Source} {e : SyntaxError}
    (h : linter.lintSource source = ⟨[source], .error e⟩) (rest : List Source) :
    linter.lintAll (source :: rest) = ⟨[source], .error e⟩ := by
  simp only [lintAll, h]

theorem lintAll_tolerate (sources : List Source) :
    lintAll ⟨tokenizer, ruleset, .tolerate⟩ sources =
      ⟨sources, .ok (sources.flatMap (block tokenizer ruleset))⟩ := by
  induction sources with
  | nil => rfl
  | cons source rest ih =>
    rw [lintAll_cons_of_ok (lintSource_tolerate source), ih]
    rfl

/-- Templates that can be read are linted in the same way whatever is done about syntax errors. -/
theorem lintAll_append_of_reads (mode : SyntaxErrors) {before : List Source}
    (hreads : ∀ source ∈ before, ∃ stream, tokenizer source = .ok stream) (rest : List Source) :
    lintAll ⟨tokenizer, ruleset, mode⟩ (before ++ rest) =
      ⟨before ++ (lintAll ⟨tokenizer, ruleset, mode⟩ rest).tokenized,
        (lintAll ⟨tokenizer, ruleset, mode⟩ rest).result.map
          (before.flatMap (block tokenizer ruleset) ++ ·)⟩ := by
  induction before with
  | nil =>
    cases hrest : (lintAll ⟨tokenizer, ruleset, mode⟩ rest).result <;>
      simp [Except.map, ← hrest]
  | cons source before ih =>
    obtain ⟨stream, hstream⟩ := hreads source (by simp)
    have hmore := ih fun s hs => hreads s (List.mem_cons_of_mem source hs)
    rw [List.cons_append, lintAll_cons_of_ok (lintSource_of_ok mode hstream), hmore]
    cases (lintAll ⟨tokenizer, ruleset, mode⟩ rest).result <;> simp [Except.map]

/-- A template that cannot be read, behind templates that can. -/
structure FirstError (tokenizer : Tokenizer) (sources before : List Source) (source : Source)
    (behind : List Source) (e : SyntaxError) : Prop where
  split : sources = before ++ source :: behind
  reads : ∀ s ∈ before, ∃ stream, tokenizer s = .ok stream
  fails : tokenizer source = .error e

theorem reads_or_firstError (tokenizer : Tokenizer) (sources : List Source) :
    (∀ source ∈ sources, ∃ stream, tokenizer source = .ok stream) ∨
      ∃ before source behind e, FirstError tokenizer sources before source behind e := by
  induction sources with
  | nil => exact .inl (by simp)
  | cons first rest ih =>
    cases hfirst : tokenizer first with
    | error e => exact .inr ⟨[], first, rest, e, rfl, by simp, hfirst⟩
    | ok stream =>
      rcases ih with hreads | ⟨before, source, behind, e, hsplit, hreads, hfails⟩
      · exact .inl (List.forall_mem_cons.2 ⟨⟨stream, hfirst⟩, hreads⟩)
      · exact .inr ⟨first :: before, source, behind, e, by rw [hsplit]; rfl,
          List.forall_mem_cons.2 ⟨⟨stream, hfirst⟩, hreads⟩, hfails⟩

theorem lintAll_throw_of_reads {sources : List Source}
    (h : ∀ source ∈ sources, ∃ stream, tokenizer source = .ok stream) :
    lintAll ⟨tokenizer, ruleset, .throw⟩ sources =
      ⟨sources, .ok (sources.flatMap (block tokenizer ruleset))⟩ := by
  have hall : lintAll ⟨tokenizer, ruleset, .throw⟩ (sources ++ []) = _ :=
    lintAll_append_of_reads .throw h []
  simpa [lintAll, Except.map] using hall

theorem FirstError.lintAll_throw {sources before behind : List Source} {source : Source}
    {e : SyntaxError} (h : FirstError tokenizer sources before source behind e) :
    lintAll ⟨tokenizer, ruleset, .throw⟩ sources = ⟨before ++ [source], .error e⟩ := by
  rw [h.split, lintAll_append_of_reads .throw h.reads,
    lintAll_cons_of_error (lintSource_throw_of_error h.fails)]
  rfl

theorem FirstError.flatMap_block {sources before behind : List Source} {source : Source}
    {e : SyntaxError} (h : FirstError tokenizer sources before source behind e) :
    sources.flatMap (block tokenizer ruleset) =
      before.flatMap (block tokenizer ruleset) ++ ⟨e.path, e.position, e.message, .error⟩ ::
        behind.flatMap (block tokenizer ruleset) := by
  rw [h.split, List.flatMap_append, List.flatMap_cons, block_of_error h.fails]
  rfl

/-- **Both ways of linting agree up to the first syntax error.** A tolerant session goes through all
templates and gives their blocks, which for a list of checks are the findings of the checks in their
order. A strict session succeeds just if all templates can be read, and is then the same as the tolerant
one. Otherwise it ends at the first template that cannot be read, with the error that the tolerant
session has right behind the blocks of the templates before. -/
theorem lintAll_strict_eq_tolerant (tokenizer : Tokenizer) (ruleset : Ruleset)
    (sources : List Source) :
    let tolerant := lintAll ⟨tokenizer, ruleset, .tolerate⟩ sources
    let strict := lintAll ⟨tokenizer, ruleset, .throw⟩ sources
    tolerant = ⟨sources, .ok (sources.flatMap (block tokenizer ruleset))⟩ ∧
      (∀ name checks source stream, ruleset = .ofChecks name checks → tokenizer source = .ok stream →
        block tokenizer ruleset source = (checks.map fun check => check stream).flatten) ∧
      ((∃ found, strict.result = .ok found) ↔
        ∀ source ∈ sources, ∃ stream, tokenizer source = .ok stream) ∧
      ((∃ found, strict.result = .ok found) → strict = tolerant) ∧
      ((¬ ∃ found, strict.result = .ok found) → ∃ before source behind e,
        FirstError tokenizer sources before source behind e ∧
          strict.result = .error e ∧ strict.tokenized = before ++ [source] ∧
          strict.tokenized.length = before.length + 1 ∧
          tolerant.result = .ok (before.flatMap (block tokenizer ruleset) ++
            ⟨e.path, e.position, e.message, .error⟩ ::
              behind.flatMap (block tokenizer ruleset))) := by
  intro tolerant strict
  have htolerant : tolerant = ⟨sources, .ok (sources.flatMap (block tokenizer ruleset))⟩ :=
    lintAll_tolerate sources
  have hchecks : ∀ name checks source stream, ruleset = .ofChecks name checks →
      tokenizer source = .ok stream →
      block tokenizer ruleset source = (checks.map fun check => check stream).flatten := by
    intro name checks source stream hruleset hstream
    rw [block_of_ok hstream, hruleset, Ruleset.validate_ofChecks]
  rcases reads_or_firstError tokenizer sources with hreads | ⟨before, source, behind, e, hfirst⟩
  · have hstrict : strict = tolerant := by
      rw [htolerant]
      exact lintAll_throw_of_reads hreads
    have hfound : ∃ found, strict.result = .ok found := ⟨_, by rw [hstrict, htolerant]⟩
    exact ⟨htolerant, hchecks, ⟨fun _ => hreads, fun _ => hfound⟩, fun _ => hstrict,
      fun hnone => absurd hfound hnone⟩
  · have hstrict : strict = ⟨before ++ [source], .error e⟩ := hfirst.lintAll_throw
    have hnone : ¬ ∃ found, strict.result = .ok found := by
      rw [hstrict]
      simp
    have hunread : ¬ ∀ source ∈ sources, ∃ stream, tokenizer source = .ok stream := by
      intro hreads
      obtain ⟨stream, hstream⟩ := hreads source (by simp [hfirst.split])
      rw [hfirst.fails] at hstream
      cases hstream
    refine ⟨htolerant, hchecks, ⟨fun hfound => absurd hfound hnone, fun hreads => absurd hreads hunread⟩,
      fun hfound => absurd hfound hnone, fun _ => ⟨before, source, behind, e, hfirst, ?_⟩⟩
    rw [htolerant, hstrict, hfirst.flatMap_block]
    exact ⟨rfl, rfl, by simp, rfl⟩

/-- A template that cannot be read, between two that have a finding each. The strict session never gets
to the last one. -/
theorem lintAll_strict_eq_tolerant_at_second :
    let sources : List Source := [⟨"\x7b\x7ba \x7d\x7d", "/a", "a"⟩, ⟨"b\n \x7b% if", "/b", "b"⟩,
      ⟨"c \n", "/c", "c"⟩]
    let rules := Ruleset.ofRules "blanks" Ruleset.whitespaceRules
    ∃ before source behind e, FirstError tokenize sources before source behind e ∧
      (lintAll ⟨tokenize, rules, .throw⟩ sources).tokenized.length = 2 ∧
      (lintAll ⟨tokenize, rules, .tolerate⟩ sources).result =
        .ok [⟨"a", ⟨1, 0⟩, "There should be 1 space(s) after \"\x7b\x7b\".", .error⟩,
          ⟨"b", ⟨2, 1⟩, "Unclosed \"block\"", .error⟩,
          ⟨"c", ⟨1, 1⟩, "A line should not end with blank space(s).", .error⟩] := by
  intro sources rules
  have hnone : ¬ ∃ found, (lintAll ⟨tokenize, rules, .throw⟩ sources).result = .ok found := by
    have hresult : (lintAll ⟨tokenize, rules, .throw⟩ sources).result =
        .error ⟨"b", ⟨2, 1⟩, "Unclosed \"block\""⟩ := by decide +kernel
    rw [hresult]
    simp
  obtain ⟨htolerant, -, -, -, hfirst⟩ := lintAll_strict_eq_tolerant tokenize rules sources
  obtain ⟨before, source, behind, e, h, -, -⟩ := hfirst hnone
  refine ⟨before, source, behind, e, h, by decide +kernel, ?_⟩
  rw [htolerant]
  decide +kernel

end Linter

end TemplateLint
