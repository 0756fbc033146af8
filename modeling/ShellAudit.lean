import ShellAudit.Text.Blank
import ShellAudit.Text.Line
import ShellAudit.Text.Tab
import ShellAudit.Text.Search
import ShellAudit.Text.Position
import ShellAudit.Text.Word
import ShellAudit.Text.Printable
import ShellAudit.Text.Decimal
import ShellAudit.Syntax.Kind
import ShellAudit.Syntax.Node
import ShellAudit.Syntax.Grammar
import ShellAudit.NameSet
import ShellAudit.Text.Hex
import ShellAudit.Text.Quoted
import ShellAudit.Fault
import ShellAudit.Record
import ShellAudit.Taint
import ShellAudit.Scope
import ShellAudit.Walk.State
import ShellAudit.Walk.Expansion
import ShellAudit.Walk.Simple
import ShellAudit.Walk.Test
import ShellAudit.Walk.Value
import ShellAudit.Walk.Visit
import ShellAudit.Walk.Run
import ShellAudit.Number.Binary
import ShellAudit.Number.Numeral
import ShellAudit.Json
import ShellAudit.Finding
import ShellAudit.Finding.Wording
import ShellAudit.Finding.Dedup
import ShellAudit.Quoting
import ShellAudit.Script
import ShellAudit.Tools
import ShellAudit.Check.SearchPath
import ShellAudit.Check.ScriptName
import ShellAudit.Check.Expansion
import ShellAudit.Check.Injection
import ShellAudit.Probe
import ShellAudit.Lint
import ShellAudit.Audit
import ShellAudit.Path
import ShellAudit.FileStore
import ShellAudit.Report.Colour
import ShellAudit.Report.Text
import ShellAudit.Report.Json
import ShellAudit.Repair.Variable
import ShellAudit.Repair.Substitution
import ShellAudit.Repair
import ShellAudit.Job
import ShellAudit.CommandLine.Options
import ShellAudit.CommandLine.Run
import ShellAudit.Statistics
import ShellAudit.Main
import ShellAudit.Proofs.Composed
import ShellAudit.Proofs.NonInterference
import ShellAudit.Proofs.Draft
import ShellAudit.Proofs.Spending
import ShellAudit.Proofs.WalkCost
import ShellAudit.Proofs.Layout
import ShellAudit.Proofs.Termination
import ShellAudit.Proofs.Pruning
import ShellAudit.Proofs.Branches
import ShellAudit.Proofs.Containment
import ShellAudit.Proofs.Growth
import ShellAudit.Proofs.Deduplication
import ShellAudit.Proofs.Entries
import ShellAudit.Proofs.Logic
import ShellAudit.Proofs.Logic.Visits
import ShellAudit.Proofs.Locals
import ShellAudit.Proofs.Rows
import ShellAudit.Proofs.Positions
import ShellAudit.Proofs.Repairing
import ShellAudit.Proofs.LintReport
import ShellAudit.Proofs.Placement
import ShellAudit.Proofs.Checking
import ShellAudit.Proofs.Auditing
import ShellAudit.Proofs.Parallel
import ShellAudit.Proofs.Shifting
import ShellAudit.Proofs.Provenance
import ShellAudit.Proofs.Nesting
import ShellAudit.Proofs.NameCapture
import ShellAudit.Proofs.Looping
import ShellAudit.Proofs.MoreTaint
import ShellAudit.Proofs.Frames
import ShellAudit.Proofs.Trail
import ShellAudit.Proofs.WalkedOnce
import ShellAudit.Proofs.Callees
import ShellAudit.Proofs.CommandCoverage
import ShellAudit.Proofs.Retention
import ShellAudit.Proofs.Spelling
import ShellAudit.Proofs.Readers
import ShellAudit.Proofs.BracedNames
import ShellAudit.Proofs.TaintSources
import ShellAudit.Proofs.CommandKeys
import ShellAudit.Proofs.OutsideUses
import ShellAudit.Proofs.LinePlaces
import ShellAudit.Proofs.Stability
import ShellAudit.Proofs.RowsKept
import ShellAudit.Proofs.QuotedRuns
import ShellAudit.Proofs.Dependence
import ShellAudit.Proofs.QuotedExpansions
import ShellAudit.Proofs.Evaluators
import ShellAudit.Proofs.CommandMarks
import ShellAudit.Proofs.Parentheses
import ShellAudit.Proofs.BetweenQuotes
import ShellAudit.Proofs.ColumnShifts
import ShellAudit.Proofs.ProbeVerdicts
import ShellAudit.Proofs.ArrayElements
import ShellAudit.Proofs.EvaluatedNames
import ShellAudit.Proofs.SharedVariables
import ShellAudit.Proofs.JsonReading
import ShellAudit.Proofs.Reports
import ShellAudit.Proofs.Tallies
import ShellAudit.Proofs.RepairOutcomes
import ShellAudit.Proofs.SimpleVariables
