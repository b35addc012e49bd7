import TemplateLint.Failure
import TemplateLint.Registry
import TemplateLint.Rule

/-!
# Rulesets

A ruleset is what a run checks templates with. The stock rulesets are lists of rules for one version of
the template language, run in the order of the list on the same tokens; which versions there are is for
each ruleset to say. A run names its ruleset and its version, and both are checked before any template
is looked at.
-/

namespace TemplateLint

/-- A named way to check the tokens of a template. -/
structure Ruleset where
  name : String
  validate : TokenStream → List Violation

namespace Ruleset

/-- The ruleset that runs checks one after the other on the same tokens and keeps what all of them
find. -/
def ofChecks (name : String) (checks : List (TokenStream → List Violation)) : Ruleset :=
  ⟨name, fun stream => checks.foldl (fun found check => found ++ check stream) []⟩

/-- The ruleset that runs stock rules one after the other. -/
def ofRules (name : String) (rules : List Rule) : Ruleset :=
  ofChecks name (rules.map Rule.check)

/-- The rules about blanks. -/
def whitespaceRules : List Rule :=
  [.delimiterSpacing {}, .trailingSpace {}]

/-- All stock rules, for a language version. -/
def officialRules (version : UInt8) : List Rule :=
  whitespaceRules ++ [.lowerCaseVariable {}, .deprecatedTag { version }]

/-- All stock rules, for the versions from one to three. -/
def official (version : UInt8) : Except SettingError Ruleset :=
  if 1 ≤ version ∧ version ≤ 3 then .ok (ofRules "official" (officialRules version))
  else .error (.unsupportedVersion "official" version "1-3")

/-- The stock rules about blanks, for every version from one on. -/
def whitespace (version : UInt8) : Except SettingError Ruleset :=
  if version = 0 then .error (.unsupportedVersion "whitespace" version "1+")
  else .ok (ofRules "whitespace" whitespaceRules)

end Ruleset

/-- The rulesets a run can choose from, each given by what it is for a version. -/
abbrev RulesetRegistry := Registry (UInt8 → Except SettingError Ruleset)

namespace RulesetRegistry

/-- The stock rulesets. -/
def stock : RulesetRegistry :=
  Registry.ofList [("official", Ruleset.official), ("whitespace", Ruleset.whitespace)]

/-- The ruleset of a name for a version. -/
def resolve (registry : RulesetRegistry) (name : String) (version : UInt8) :
    Except SettingError Ruleset :=
  match registry.find? name with
  | some ruleset => ruleset version
  | none => .error (.unknownRuleset name registry.names)

end RulesetRegistry

end TemplateLint
