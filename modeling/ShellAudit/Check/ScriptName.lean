-- SUMMARY: The check for commands that run the script's own name.
import ShellAudit.Finding.Wording
import ShellAudit.Finding
import ShellAudit.Record
import ShellAudit.Script

/-!
# The script's own name

Parameter `0` holds the name under which the script was called. A command that
runs it may run another file by then.
-/

namespace ShellAudit.Check

/-- Finds the commands that run parameter `0`. -/
def scriptName (script : Script) (survey : Survey) : Except Fault (List Finding) :=
  (survey.commands.filter (·.name == "0")).mapM fun c =>
    Finding.place script.rows
      { category := .parameterExpansion
        severity := .medium
        description := Wording.zerothParameter
        file := script.path
        line := c.line
        column := some c.column }

end ShellAudit.Check
