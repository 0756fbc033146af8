-- SUMMARY: The check that a script sets its search path.
import ShellAudit.Finding.Wording
import ShellAudit.Finding
import ShellAudit.Record
import ShellAudit.Script

/-!
# The search path

A script that never assigns to `PATH` runs whatever commands its caller's search
path leads to.
-/

namespace ShellAudit.Check

/-- Whether a script assigns to `PATH`. -/
def setsPath (survey : Survey) : Bool := survey.assigned.any (·.name == "PATH")

/-- Finds that a script does not set its search path. -/
def searchPath (script : Script) (survey : Survey) : Except Fault (List Finding) :=
  if setsPath survey then .ok []
  else do
    let finding ← Finding.place script.rows
      { category := .environment
        severity := .medium
        description := Wording.missingPath
        file := script.path }
    return [finding]

end ShellAudit.Check
