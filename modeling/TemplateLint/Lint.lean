import TemplateLint.Ruleset
import TemplateLint.Template.Scan

/-!
# Linting templates

Templates are linted one after the other: each is read into tokens and the tokens are checked. A
template that cannot be read stops everything when syntax errors are thrown, and is a finding of its own
when they are tolerated. The tokenizer and the ruleset are given by the caller.

A session keeps, beside its result, the templates that were handed to the tokenizer, in order. So it can
be said of a run that it stopped before any template was read, or at which one.
-/

namespace TemplateLint

/-- What is done about a template that cannot be read. -/
inductive SyntaxErrors where
  /-- It is recorded as a finding and the others are linted. -/
  | tolerate
  /-- It stops the run. -/
  | throw
  deriving DecidableEq, Repr, Inhabited

/-- The choice that the corresponding flag makes. -/
def SyntaxErrors.ofFlag (throwing : Bool) : SyntaxErrors :=
  if throwing then .throw else .tolerate

/-- How templates are linted. -/
structure Linter where
  tokenizer : Tokenizer
  ruleset : Ruleset
  syntaxErrors : SyntaxErrors

/-- What came of linting templates. -/
structure Session where
  /-- The templates that were handed to the tokenizer. -/
  tokenized : List Source
  result : Except SyntaxError (List Violation)

namespace Linter

/-- The findings about one template. The tokenizer is called once. -/
def lintSource (linter : Linter) (source : Source) : Session where
  tokenized := [source]
  result :=
    match linter.tokenizer source with
    | .ok stream => .ok (linter.ruleset.validate stream)
    | .error error =>
      match linter.syntaxErrors with
      | .throw => .error error
      | .tolerate => .ok [error.toViolation]

/-- Lints templates in order, up to the first one whose syntax error is thrown. -/
def lintAll (linter : Linter) : List Source → Session
  | [] => ⟨[], .ok []⟩
  | source :: rest =>
    let first := linter.lintSource source
    match first.result with
    | .error error => ⟨first.tokenized, .error error⟩
    | .ok found =>
      let session := linter.lintAll rest
      ⟨first.tokenized ++ session.tokenized, session.result.map (found ++ ·)⟩

end Linter

end TemplateLint
