-- SUMMARY: The check for expansions that are not quoted.
import ShellAudit.Finding.Wording
import ShellAudit.Finding
import ShellAudit.Quoting
import ShellAudit.Script
import ShellAudit.Text.Blank

/-!
# Unquoted expansions

An expansion that is not quoted is split into words and matched against file
names. Uses of variables are looked up at their own position in the line.
Assigned values are looked up by the text of the assignment.
-/

namespace ShellAudit.Check

/-- The line of a script that a record stands in. -/
def lineAt (lines : List String) (line : Int) : Except Fault (List Char) :=
  match Text.at? lines line with
  | some content => .ok content.toList
  | none => .error .lineOutOfRange

/-- The line that a record stands in, and an empty one if the script ends before. -/
def lineOrEmpty (lines : List String) (line : Int) : Except Fault (List Char) :=
  if line < lines.length then lineAt lines line else .ok []

/-- The finding for an expansion that is not quoted. -/
def unquoted (script : Script) (line column : Int) (content : List Char) : Except Fault Finding :=
  Finding.place script.rows
    { category := .variableExpansion
      severity := .medium
      description := Wording.unquotedVariable
      file := script.path
      line := line
      column := some column
      content := some (String.ofList content)
      recommendation := some Wording.quoteVariables }

/-! ## Uses -/

/-- The name of an expansion without its dollar sign and braces. -/
def bareName (written : String) : List Char :=
  Text.trimEnd (· = '\x7d') ((written.toList.dropWhile (· = '$')).dropWhile (· = '\x7b'))

/-- Whether a use starts its line, so that it is run as a command. A line beyond
the script starts with nothing. -/
def startsLine (lines : List String) (use : Use) : Except Fault Bool :=
  if lines.length ≤ use.line then .ok false
  else do
    let line ← lineAt lines use.line
    return use.name.toList.isPrefixOf (Text.trim Text.isBlank line)

/-- Whether a use stands between quotes of either kind. -/
def isQuoted (lines : List String) (use : Use) : Except Fault Bool := do
  let line ← lineAt lines use.line
  let stop := use.column + use.name.length
  if ← Quoting.check line '"' use.column stop then return true
  else Quoting.check line '\x27' use.column stop

/-- Finds that a use is not quoted. Parameter `0` is left to its own check. -/
def unquotedUse (script : Script) (use : Use) : Except Fault (List Finding) :=
  if bareName use.name = ['0'] then .ok []
  else do
    if ← startsLine script.lines use then return []
    else if ← isQuoted script.lines use then return []
    else
      let line ← lineAt script.lines use.line
      return [← unquoted script use.line use.column line]

/-! ## Assignments -/

/-- Finds that a part of an assigned value is not quoted. -/
def unquotedPart (script : Script) (a : Assignment) (part : Part) : Except Fault (List Finding) :=
  match part.name? with
  | none => .ok []
  | some name =>
    if script.lines.length ≤ a.line then .ok []
    else do
      let line ← lineAt script.lines a.line
      if ← Quoting.valueQuoted line a.name name then return []
      else
        match part.frame? with
        | none => throw .missingColumn
        | some frame => return [← unquoted script a.line frame.start line]

/-- Finds the parts of an assigned value that are not quoted. -/
def unquotedValue (script : Script) (a : Assignment) : Except Fault (List Finding) := do
  let parts := (a.value.map (·.parts)).getD []
  return (← parts.mapM (unquotedPart script a)).flatten

/-- Finds the expansions of a script that are not quoted. -/
def expansion (script : Script) (survey : Survey) : Except Fault (List Finding) := do
  let uses ← survey.used.mapM (unquotedUse script)
  let values ← survey.assigned.mapM (unquotedValue script)
  return uses.flatten ++ values.flatten

end ShellAudit.Check
