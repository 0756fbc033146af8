-- SUMMARY: The report for people.
import ShellAudit.Finding
import ShellAudit.Report.Colour

/-!
# Text reports

The report puts the findings into groups, one for each severity. It tells how
large the groups are and then shows each finding, the worst first. Findings of
one severity keep their order. A finding with content has a pointer under the
column that it is about.
-/

namespace ShellAudit.Report

/-! ## Groups -/

/-- Changes what stands under a key. -/
def revise {κ α : Type} [DecidableEq κ] (key : κ) (change : α → α) (entries : List (κ × α)) :
    List (κ × α) :=
  entries.map fun e => if e.1 = key then (e.1, change e.2) else e

/-- The findings under their severities, the worst first. -/
def grouped (fs : List Finding) : List (Severity × List Finding) :=
  fs.foldl (fun groups f => revise f.severity (· ++ [f]) groups)
    (Severity.descending.map fun s => (s, []))

/-- What is listed under a severity. -/
def listed (groups : List (Severity × List Finding)) (s : Severity) : List Finding :=
  (groups.lookup s).getD []

/-- The findings of all groups, the worst first. -/
def bySeverity (groups : List (Severity × List Finding)) : List Finding :=
  Severity.descending.flatMap (listed groups)

/-! ## Lines -/

/-- A text that is given and not empty. -/
def given? (s : Option String) : Option String := s.filter (· ≠ "")

/-- The name of the file that is reported on. -/
def fileName (file : Option String) : String := (given? file).getD "stdin"

def colour : Severity → String
  | .critical => Colour.red ++ Colour.bright
  | .high => Colour.red
  | .medium => Colour.yellow
  | .low => Colour.white

/-- The line that points at the column of a finding, and an empty line. -/
def pointer (f : Finding) : String :=
  let column := match f.column with
    | some c => if c = 0 then 1 else c
    | none => 1
  String.ofList (List.replicate (column - 1).toNat ' ') ++ "^--- " ++ f.description ++ "\n"

/-- What is shown of a finding below its head. -/
def body (f : Finding) : List String :=
  (match given? f.content with
    | some content => [content, pointer f]
    | none => ["Description: " ++ f.description])
  ++ ((given? f.recommendation).map ("Recommendation: " ++ ·)).toList
  ++ (if f.references = [] then []
    else "References:" :: f.references.map ("  - " ++ ·))

/-- The lines about the finding with a given number. -/
def details (number : Nat) (f : Finding) : List String :=
  [colour f.severity ++ "[" ++ toString number ++ "] " ++ f.category.name ++ " (" ++ f.severity.name
      ++ ")" ++ Colour.reset,
    "Line " ++ toString f.line ++ ":"]
  ++ body f ++ [""]

/-- The lines about findings, numbered from `number` on. -/
def detailsFrom : Nat → List Finding → List String
  | _, [] => []
  | number, f :: fs => details number f ++ detailsFrom (number + 1) fs

/-- The lines before the first finding. -/
def summary (file : Option String) (total : Nat) (groups : List (Severity × List Finding)) :
    List String :=
  ["BashGuard Security Analysis Report",
    "========================================",
    "",
    "File: " ++ fileName file,
    "",
    "Total vulnerabilities found: " ++ toString total,
    "Critical: " ++ toString (listed groups .critical).length,
    "High: " ++ toString (listed groups .high).length,
    "Medium: " ++ toString (listed groups .medium).length,
    "Low: " ++ toString (listed groups .low).length,
    ""]

/-- The report for people. -/
def text (file : Option String) (fs : List Finding) : String :=
  if fs.isEmpty then "No vulnerabilities found."
  else
    let groups := grouped fs
    "\n".intercalate (summary file fs.length groups ++ detailsFrom 1 (bySeverity groups))

end ShellAudit.Report
