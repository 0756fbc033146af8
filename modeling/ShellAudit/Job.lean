-- SUMMARY: Work on the files of a directory: auditing a script and repairing it.
import ShellAudit.Audit
import ShellAudit.FileStore
import ShellAudit.Repair

/-!
# Jobs

A job reads and writes files, prints, and asks outside programs. When it stops
with a fault, what it has written and printed stays.
-/

namespace ShellAudit

namespace Job

/-- The files, and what has been printed. -/
structure State where
  files : FileStore
  printed : String := ""
deriving Inhabited

/-- What is printed besides the results. -/
structure Verbosity where
  verbose : Bool := false
  debug : Bool := false
deriving DecidableEq, Repr, Inhabited

end Job

/-- A step of a job. -/
abbrev Job (m : Type → Type) := ExceptT Fault (StateT Job.State m)

namespace Job

variable {m : Type → Type} [Monad m]

/-- What a job gives and leaves behind when it starts from a state. -/
def exec {α : Type} (job : Job m α) (s : State) : m (Except Fault α × State) :=
  (ExceptT.run job).run s

/-- Prints a line. -/
def say (line : String) : Job m Unit :=
  modify fun s => { s with printed := s.printed ++ line ++ "\n" }

def sayAll : List String → Job m Unit
  | [] => return ()
  | line :: lines => do
    say line
    sayAll lines

def liftExcept {α : Type} (x : Except Fault α) : Job m α := ExceptT.mk (pure x)

def liftTool {α : Type} (x : m α) : Job m α := ExceptT.lift (StateT.lift x)

/-! ## Audits -/

/-- Surveys a script. -/
def survey (g : Grammar) (v : Verbosity) (script : Script) : Job m Survey := do
  let surveyed := Survey.ofScript g script.text
  sayAll (if v.debug then surveyed.notes else [])
  liftExcept surveyed.result

/-- Audits a surveyed script. Gives the survey as the audit leaves it, and the
findings or the fault that stopped it. -/
def auditOnce (tools : Tools m) (v : Verbosity) (script : Script) (survey : Survey) :
    Job m (Except Fault (List Finding) × Survey) := do
  let (result, desk) ← liftTool ((Audit.findings tools v.verbose script).exec { survey := survey })
  sayAll desk.printed
  return (result, desk.survey)

/-- Audits the script in the file at a path. -/
def auditFile (tools : Tools m) (g : Grammar) (v : Verbosity) (path : String) :
    Job m (List Finding) := do
  let script ← liftExcept (Script.ofFile (← get).files path)
  let survey ← survey g v script
  let (result, _) ← auditOnce tools v script survey
  liftExcept result

/-! ## Repairs -/

/-- Writes a text to a path. -/
def writeFile (path text : String) : Job m Unit := do
  let files ← liftExcept ((← get).files.write path text)
  modify fun s => { s with files := files }

/-- Repairs rows and writes them to a path. Gives the rows as the repair leaves
them, and the fault that stopped it, if there is one. -/
def repairRows (rows : List String) (output : String) (fs : List Finding) :
    Job m (Except Fault Unit × List String) := do
  match (Repair.all fs).exec rows with
  | (.error fault, repaired) => return (.error fault, repaired)
  | (.ok (), repaired) =>
    match (← get).files.write output (String.join repaired) with
    | .ok files =>
      modify fun s => { s with files := files }
      return (.ok (), repaired)
    | .error fault => return (.error fault, repaired)

/-- Repairs the script in the file at a path. -/
def repairFile (path output : String) (fs : List Finding) : Job m Unit := do
  let text ← liftExcept ((← get).files.readText path)
  let (result, _) ← repairRows (Repair.rowsOf text) output fs
  liftExcept result

end Job

end ShellAudit
