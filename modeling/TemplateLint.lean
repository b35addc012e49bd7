import TemplateLint.Main
import TemplateLint.Proofs.Template.Acceptance
import TemplateLint.Proofs.Template.Blanks
import TemplateLint.Proofs.Template.Composition
import TemplateLint.Proofs.Template.Diagnosis
import TemplateLint.Proofs.Template.Fault
import TemplateLint.Proofs.Template.Grammar
import TemplateLint.Proofs.Template.Language
import TemplateLint.Proofs.Template.Lossless
import TemplateLint.Proofs.Template.Reading
import TemplateLint.Proofs.Template.Recognition
import TemplateLint.Proofs.Lint.Recovery
import TemplateLint.Proofs.Run.Atomicity
import TemplateLint.Proofs.Run.Verdict
import TemplateLint.Proofs.Rule.Declarations
import TemplateLint.Proofs.Rule.LineEnds
import TemplateLint.Proofs.Rule.Locality
import TemplateLint.Proofs.Rule.Padding
import TemplateLint.Proofs.Rule.Places
import TemplateLint.Proofs.Lint.Findings
import TemplateLint.Proofs.Lint.Refinement
import TemplateLint.Proofs.Files.PathOrder
import TemplateLint.Proofs.Files.Grouping
import TemplateLint.Proofs.Files.TemplatePattern
import TemplateLint.Proofs.Files.Places
import TemplateLint.Proofs.Files.Walk
import TemplateLint.Proofs.Files.Filters
import TemplateLint.Proofs.Files.Search
import TemplateLint.Proofs.Files.Links
import TemplateLint.Proofs.Files.DisplayPath
import TemplateLint.Proofs.FirstOccurrences
import TemplateLint.Proofs.Finding.Grouping
import TemplateLint.Proofs.Text.Digits
import TemplateLint.Proofs.Text.PrefixFree
import TemplateLint.Proofs.Report.Json
import TemplateLint.Proofs.Report.Github
import TemplateLint.Proofs.Report.Checkstyle
import TemplateLint.Proofs.Report.Console
import TemplateLint.Proofs.Files.Loading
import TemplateLint.Proofs.Text.Utf8
import TemplateLint.Proofs.Files.Ancestors
import TemplateLint.Proofs.Files.Spelling
import TemplateLint.Proofs.Files.Ways
import TemplateLint.Proofs.Files.Relocation
import TemplateLint.Proofs.Settings.ProjectRoot
import TemplateLint.Proofs.Settings.ConfigPaths
import TemplateLint.Proofs.CommandLine.Overrides
import TemplateLint.Proofs.Finding.Threshold
import TemplateLint.Proofs.Rule.FinalNewline
import TemplateLint.Proofs.Report.XmlText
