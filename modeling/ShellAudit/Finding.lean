-- SUMMARY: Findings: what is wrong, how bad it is, and where it stands.
import ShellAudit.Fault
import ShellAudit.Json
import ShellAudit.Text.Blank
import ShellAudit.Text.Tab

/-!
# Findings

An analysis counts lines and columns from zero; a finding that is placed counts
them from one. The line `-1` stands for the script as a whole and is left alone.
-/

namespace ShellAudit

/-- How bad a finding is. -/
inductive Severity where
  | low
  | medium
  | high
  | critical
deriving DecidableEq, Repr, Inhabited

namespace Severity

/-- All severities, the worst first. -/
def descending : List Severity := [critical, high, medium, low]

theorem mem_descending (s : Severity) : s ∈ descending := by cases s <;> decide

def name : Severity → String
  | low => "LOW"
  | medium => "MEDIUM"
  | high => "HIGH"
  | critical => "CRITICAL"

/-- The severity of a given name. -/
def ofName? (s : String) : Option Severity := descending.find? (·.name == s)

theorem ofName?_name (s : Severity) : ofName? s.name = some s := by cases s <;> decide

end Severity

/-- What a finding is about. -/
inductive Category where
  | commandInjection
  | environment
  | pathTraversal
  | variableExpansion
  | parameterExpansion
  | privilege
  | lint
  | other
  | unquotedVariable
  | commandSubstitution
  | unquotedCommandSubstitution
  | arrayIndexAttack
  | syntaxError
  | globExpansion
deriving DecidableEq, Repr, Inhabited

namespace Category

def all : List Category :=
  [commandInjection, environment, pathTraversal, variableExpansion, parameterExpansion, privilege,
    lint, other, unquotedVariable, commandSubstitution, unquotedCommandSubstitution,
    arrayIndexAttack, syntaxError, globExpansion]

theorem mem_all (c : Category) : c ∈ all := by cases c <;> decide

def name : Category → String
  | commandInjection => "COMMAND_INJECTION"
  | environment => "ENVIRONMENT"
  | pathTraversal => "PATH_TRAVERSAL"
  | variableExpansion => "VARIABLE_EXPANSION"
  | parameterExpansion => "PARAMETER_EXPANSION"
  | privilege => "PRIVILEGE"
  | lint => "SHELLCHECK"
  | other => "OTHER"
  | unquotedVariable => "UNQUOTED_VARIABLE"
  | commandSubstitution => "COMMAND_SUBSTITUTION"
  | unquotedCommandSubstitution => "UNQUOTED_COMMAND_SUBSTITUTION"
  | arrayIndexAttack => "ARRAY_INDEX_ATTACK"
  | syntaxError => "SYNTAX_ERROR"
  | globExpansion => "GLOB_EXPANSION"

/-- The category of a given name. -/
def ofName? (s : String) : Option Category := all.find? (·.name == s)

theorem ofName?_name (c : Category) : ofName? c.name = some c := by cases c <;> decide

end Category

structure Finding where
  category : Category
  severity : Severity
  description : String
  file : Option String := none
  line : Int := -1
  column : Option Int := none
  content : Option String := none
  recommendation : Option String := none
  references : List String := []
  metadata : List (String × Json) := []
deriving Inhabited

namespace Finding

/-- The content of a row as a finding shows it. -/
def rowContent (row : String) : String :=
  String.ofList (Text.expandTabs (Text.trimEnd Text.isBlank row.toList))

/-- Counts the line and the column of a finding from one, and takes its content
from the rows of its file if it has none. -/
def place (rows : List String) (f : Finding) : Except Fault Finding :=
  let content := f.content.or (if 0 ≤ f.line then rows[f.line.toNat]?.map rowContent else none)
  if f.line = -1 then .ok { f with content := content }
  else
    match f.column with
    | some column =>
      .ok { f with line := f.line + 1, column := some (column + 1), content := content }
    | none => .error .missingColumn

private def shown : Option String → String
  | some s => s
  | none => "None"

/-- A finding on several lines, for people. -/
def describe (f : Finding) : String :=
  "\n        Vulnerability [\n            type = VulnerabilityType." ++ f.category.name
    ++ ",\n            severity = SeverityLevel." ++ f.severity.name
    ++ ",\n            description = " ++ f.description
    ++ ",\n            file_path = " ++ shown f.file
    ++ ",\n            line_number = " ++ toString f.line
    ++ ",\n            column = " ++ shown (f.column.map toString)
    ++ ",\n            line_content = " ++ shown f.content
    ++ "\n        ]\n        "

end Finding

end ShellAudit
