-- SUMMARY: The stages of the analysis of a script, and what they print.
import ShellAudit.Check.Expansion
import ShellAudit.Check.Injection
import ShellAudit.Check.ScriptName
import ShellAudit.Check.SearchPath
import ShellAudit.Finding.Dedup
import ShellAudit.Lint
import ShellAudit.Walk.Run

/-!
# Audits

An audit asks the linter and then runs the checks over one survey of the script.
If the linter finds errors in the syntax, the audit ends there. The check for
command injection counts the positional parameters as tainted from then on.
-/

namespace ShellAudit.Audit

/-- The stages in the order in which they run. -/
inductive Stage where
  | lint
  | searchPath
  | scriptName
  | expansion
  | injection
deriving DecidableEq, Repr, Inhabited

namespace Stage

def all : List Stage := [lint, searchPath, scriptName, expansion, injection]

/-- The name under which a stage is announced. -/
def label : Stage → String
  | lint => "ShellcheckAnalyzer"
  | searchPath => "EnvironmentAnalyzer"
  | scriptName => "ParameterExpansionAnalyzer"
  | expansion => "VariableExpansionAnalyzer"
  | injection => "CommandInjectionAnalyzer"

end Stage

/-- What an audit leaves behind: the survey, and the lines that it printed. -/
structure Desk where
  survey : Survey
  printed : List String := []
deriving Inhabited

end Audit

/-- A step of an audit. -/
abbrev Audit (m : Type → Type) := ExceptT Fault (StateT Audit.Desk m)

namespace Audit

variable {m : Type → Type} [Monad m]

/-- What an audit gives and leaves behind when it starts from a desk. -/
def exec {α : Type} (audit : Audit m α) (desk : Desk) : m (Except Fault α × Desk) :=
  (ExceptT.run audit).run desk

def print (line : String) : Audit m Unit :=
  modify fun desk => { desk with printed := desk.printed ++ [line] }

/-- Prints a line that is only for those who want to follow the audit. -/
def tell (verbose : Bool) (line : String) : Audit m Unit :=
  if verbose then print line else return ()

/-- A step that needs nothing from outside. -/
def liftExcept {α : Type} (x : Except Fault α) : Audit m α := ExceptT.mk (pure x)

/-- A step that uses an outside program. -/
def liftTool {α : Type} (x : m α) : Audit m α := ExceptT.lift (StateT.lift x)

/-- Runs one stage. -/
def runStage (tools : Tools m) (script : Script) : Stage → Audit m (List Finding)
  | .lint => do
    let report ← liftTool (tools.lint (Lint.target script))
    liftExcept (Lint.readBytes script report)
  | .searchPath => do liftExcept (Check.searchPath script (← get).survey)
  | .scriptName => do liftExcept (Check.scriptName script (← get).survey)
  | .expansion => do liftExcept (Check.expansion script (← get).survey)
  | .injection => do
    modify fun desk =>
      { desk with survey := { desk.survey with tainted := Check.withParameters desk.survey.tainted } }
    let survey := (← get).survey
    let result ← liftTool (Check.injection tools.shell script survey survey.tainted).run
    liftExcept result

/-- What is printed when the linter finds errors in the syntax. -/
def syntaxNotice : String :=
  "Shellcheck found some syntax errors. Fix them before detecting security vulnerabilities."

/-- Runs stages one after the other, up to one that finds errors in the syntax. -/
def runStages (tools : Tools m) (verbose : Bool) (script : Script) :
    List Stage → Audit m (List Finding)
  | [] => return []
  | stage :: rest => do
    tell verbose ("Running " ++ stage.label ++ "...")
    let found ← runStage tools script stage
    if found.any (·.category = .syntaxError) then
      print syntaxNotice
      return found
    else
      tell verbose ("Found " ++ toString found.length ++ " vulnerabilities.")
      let more ← runStages tools verbose script rest
      return found ++ more

/-- The findings of a script, without duplicates. -/
def findings (tools : Tools m) (verbose : Bool) (script : Script) : Audit m (List Finding) := do
  let found ← runStages tools verbose script Stage.all
  return Finding.dedup found

end Audit

end ShellAudit
