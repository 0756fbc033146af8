-- SUMMARY: How many findings two collections of scripts have, before and after repair.
import ShellAudit.Job

/-!
# Statistics

Every script of a collection is audited, repaired into a new file, and audited
again. The findings are tallied by severity. A script with which one of these
steps fails has no result, and the failure is counted.
-/

namespace ShellAudit

/-! ## Tallies -/

/-- Findings, all together and by severity. The severities are in the order in
which they first appear. -/
structure Tally where
  total : List Finding := []
  bySeverity : List (Severity × List Finding) := []
deriving Inhabited

namespace Tally

/-- Adds findings to those under a severity. -/
def extend (s : Severity) (fs : List Finding) :
    List (Severity × List Finding) → List (Severity × List Finding)
  | [] => [(s, fs)]
  | (t, gs) :: rest => if t = s then (t, gs ++ fs) :: rest else (t, gs) :: extend s fs rest

/-- Adds a finding. -/
def record (t : Tally) (f : Finding) : Tally :=
  { total := t.total ++ [f], bySeverity := extend f.severity [f] t.bySeverity }

/-- The tally of some findings. -/
def ofFindings (fs : List Finding) : Tally := fs.foldl record {}

/-- Adds another tally. -/
def merge (t u : Tally) : Tally :=
  { total := t.total ++ u.total
    bySeverity := u.bySeverity.foldl (fun acc (s, fs) => extend s fs acc) t.bySeverity }

/-- The tally as it is printed. -/
def lines (t : Tally) : List String :=
  ("total: " ++ toString t.total.length)
    :: t.bySeverity.map fun (s, fs) => "SeverityLevel." ++ s.name ++ ": " ++ toString fs.length

end Tally

namespace Statistics

/-! ## Results -/

/-- The findings of a script before and after its repair. -/
structure Result where
  before : Tally
  after : Tally
deriving Inhabited

/-- A number of scripts, and the results of those with which no step failed. -/
structure Collection where
  scripts : Nat
  results : List (Option Result)
deriving Inhabited

namespace Collection

def before (c : Collection) : Tally :=
  c.results.foldl (fun t result => result.elim t fun r => t.merge r.before) {}

def after (c : Collection) : Tally :=
  c.results.foldl (fun t result => result.elim t fun r => t.merge r.after) {}

end Collection

/-! ## Scripts -/

/-- The scripts below a directory, without those that a repair has written. -/
def scriptsIn (files : FileStore) (dir : List String) : List String :=
  ((files.filesBelow dir).filter fun name =>
      !Text.contains (name.getLast?.getD "").toList "fixed".toList).map
    fun name => "/".intercalate ("." :: dir ++ name)

/-- The path that the repaired script is written to. -/
def repairedPath (path : String) : String :=
  let ending := ".sh".toList
  if ending.isSuffixOf path.toList then
    String.ofList (Text.replace ending "_fixed.sh".toList path.toList)
  else path ++ "_fixed.sh"

variable {m : Type → Type} [Monad m]

/-! ## Failures -/

/-- How many audits and how many repairs have failed. -/
structure Failures where
  audits : Nat := 0
  repairs : Nat := 0
deriving DecidableEq, Inhabited

namespace Failures

def addAudit (n : Failures) : Failures := { n with audits := n.audits + 1 }
def addRepair (n : Failures) : Failures := { n with repairs := n.repairs + 1 }

end Failures

/-- A job that counts failures. -/
abbrev Counting (m : Type → Type) := StateT Failures (Job m)

/-- Runs a job. A fault is counted, and there is no result then. -/
def attempt {α : Type} (job : Job m α) (count : Failures → Failures) : Counting m (Option α) := do
  try
    let a ← job
    pure (some a)
  catch _ =>
    modify count
    pure none

/-- Audits a script, repairs it and audits the result. -/
def examine (tools : Tools m) (g : Grammar) (v : Job.Verbosity) (path : String) :
    Counting m (Option Result) := do
  let some found ← attempt (Job.auditFile tools g v path) Failures.addAudit | return none
  let output := repairedPath path
  let some () ← attempt (Job.repairFile path output found) Failures.addRepair | return none
  let some left ← attempt (Job.auditFile tools g v output) Failures.addAudit | return none
  return some { before := Tally.ofFindings found, after := Tally.ofFindings left }

/-- Examines scripts one after the other. White space around a path is ignored. -/
def examineAll (tools : Tools m) (g : Grammar) (v : Job.Verbosity) :
    List String → Counting m (List (Option Result))
  | [] => return []
  | path :: paths => do
    let result ← examine tools g v (String.ofList (Text.trim Text.isBlank path.toList))
    return result :: (← examineAll tools g v paths)

/-! ## The whole -/

def secureScripts : List String := ["scripts", "secure_scripts"]
def vulnerableScripts : List String := ["scripts", "vuln_scripts"]

/-- What is printed about two collections. -/
def summary (secure vulnerable : Collection) (failures : Failures) : List String :=
  ["TOTAL SECURE SCRIPTS: " ++ toString secure.scripts,
    "TOTAL VULNERABLE SCRIPTS: " ++ toString vulnerable.scripts,
    "--------------------------------",
    "TOTAL BEFORE FIXING SECURE SCRIPTS"]
  ++ secure.before.lines
  ++ ["\n\nTOTAL AFTER FIXING SECURE SCRIPTS"]
  ++ secure.after.lines
  ++ ["\n\n\nTOTAL BEFORE FIXING VULNERABLE SCRIPTS"]
  ++ vulnerable.before.lines
  ++ ["\n\nTOTAL AFTER FIXING VULNERABLE SCRIPTS"]
  ++ vulnerable.after.lines
  ++ ["\n\nFAILED TO ANALYZE:  " ++ toString failures.audits,
    "FAILED TO FIX:  " ++ toString failures.repairs]

/-- Gathers and prints the statistics of two collections. The failures of both
are counted together. -/
def gather (tools : Tools m) (g : Grammar) (v : Job.Verbosity) (secure vulnerable : List String) :
    Counting m Unit := do
  let secureResults ← examineAll tools g v secure
  let vulnerableResults ← examineAll tools g v vulnerable
  let lines := summary ⟨secure.length, secureResults⟩ ⟨vulnerable.length, vulnerableResults⟩ (← get)
  (Job.sayAll lines : Job m Unit)

/-- The statistics of the scripts below two directories. Both are listed before
the first script is repaired. -/
def job (tools : Tools m) (g : Grammar) (v : Job.Verbosity) : Job m Unit := do
  let files := (← get).files
  let secure := scriptsIn files secureScripts
  let vulnerable := scriptsIn files vulnerableScripts
  (gather tools g v secure vulnerable).run' {}

end Statistics

end ShellAudit
