-- SUMMARY: The report for programs.
import ShellAudit.Report.Text

/-!
# JSON reports

The report counts the findings of each severity and holds them in their own
order. What a finding does not have, or has empty, is left out.
-/

namespace ShellAudit.Report

/-- Where a finding stands. -/
def location (f : Finding) : Json :=
  .object (
    [("file", .text (fileName f.file)), ("line", .number f.line)]
    ++ match f.column with
      | some column => if column = 0 then [] else [("column", .number column)]
      | none => [])

/-- A finding with what is known of it. -/
def item (f : Finding) : Json :=
  .object (
    [("type", .text f.category.name),
      ("severity", .text f.severity.name),
      ("description", .text f.description),
      ("location", location f)]
    ++ ((given? f.content).map fun s => ("code", .text s)).toList
    ++ ((given? f.recommendation).map fun s => ("recommendation", .text s)).toList
    ++ (if f.references.isEmpty then [] else [("references", .list (f.references.map .text))])
    ++ (if f.metadata.isEmpty then [] else [("metadata", .object f.metadata)]))

/-- The number of findings under the name of each severity. -/
def counts (fs : List Finding) : List (String × Nat) :=
  fs.foldl (fun counts f => revise f.severity.name (· + 1) counts)
    (Severity.descending.map fun s => (s.name, 0))

/-- The report as a value. -/
def value (fs : List Finding) : Json :=
  .object
    [("summary", .object
        [("total", .number fs.length),
          ("by_severity", .object ((counts fs).map fun e => (e.1, .number e.2)))]),
      ("vulnerabilities", .list (fs.map item))]

/-- The report for programs. -/
def json (fs : List Finding) : String := (value fs).render 0

/-- The report in a format that is given by name. -/
def write (format : String) (file : Option String) (fs : List Finding) : Except Fault String :=
  if format = "text" then .ok (text file fs)
  else if format = "json" then .ok (json fs)
  else if format = "html" then .error .unwrittenFormat
  else .error (.unknownFormat format)

end ShellAudit.Report
