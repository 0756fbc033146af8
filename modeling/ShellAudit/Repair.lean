-- SUMMARY: The repair of the lines of a script.
import ShellAudit.Finding
import ShellAudit.Finding.Wording
import ShellAudit.Repair.Substitution
import ShellAudit.Repair.Variable
import ShellAudit.Text.Line

/-!
# Repairing scripts

A finding is repaired if its description says how. The findings of one line are
taken from left to right, and each repair moves the columns of those after it.
When a repair stops with a fault, the lines before it stay repaired.
-/

namespace ShellAudit.Repair

/-- What there is to do about a finding. -/
inductive Remedy where
  | quoteVariable
  | quoteSubstitution
deriving DecidableEq, Repr, Inhabited

namespace Remedy

def ofDescription? (description : String) : Option Remedy :=
  if description = Wording.unquotedVariable then some quoteVariable
  else if description = Wording.unquotedSubstitution then some quoteSubstitution
  else none

/-- Applies a remedy at a column. -/
def apply (line : List Char) (column : Int) : Remedy → Except Fault (List Char × Nat)
  | quoteVariable => variableIn line line column
  | quoteSubstitution => substitutionIn line column

end Remedy

/-- Repairs a line, `added` being the number of characters it has grown by. -/
def repairLine (line : List Char) (added : Nat) : List Finding → Except Fault (List Char)
  | [] => .ok line
  | f :: fs =>
    match Remedy.ofDescription? f.description with
    | none => repairLine line added fs
    | some remedy =>
      match f.column with
      | none => .error .missingColumn
      | some column => do
        let (repaired, more) ← remedy.apply line (added + column - 1)
        repairLine repaired (added + more) fs

/-- The findings in the order of their columns. Several of them can only be put
in order if each has a column. -/
def inOrder (fs : List Finding) : Except Fault (List Finding) :=
  if 2 ≤ fs.length ∧ fs.any (·.column.isNone) then .error .missingColumn
  else .ok (fs.mergeSort fun a b => a.column.getD 0 ≤ b.column.getD 0)

/-- The list with another element at a signed position. -/
def replaceAt (rows : List String) (i : Int) (row : String) : List String :=
  rows.set (if 0 ≤ i then i.toNat else (rows.length + i).toNat) row

end Repair

/-- A repair of the rows of a script. -/
abbrev Repair := ExceptT Fault (StateM (List String))

namespace Repair

/-- What a repair gives and leaves behind when it starts from some rows. -/
def exec {α : Type} (repair : Repair α) (rows : List String) : Except Fault α × List String :=
  (ExceptT.run repair).run rows

def liftExcept {α : Type} (x : Except Fault α) : Repair α := ExceptT.mk (pure x)

/-- Repairs the row at an index. -/
def repairRow (index : Int) (fs : List Finding) : Repair Unit := do
  let fs ← liftExcept (inOrder fs)
  match Text.at? (← get) index with
  | none => throw .lineOutOfRange
  | some row =>
    let repaired ← liftExcept (repairLine row.toList 0 fs)
    modify fun rows => replaceAt rows index (String.ofList repaired)

/-- Repairs rows one after the other. -/
def repairRows (fs : List Finding) : List Int → Repair Unit
  | [] => return ()
  | index :: rest => do
    repairRow index (fs.filter (·.line - 1 = index))
    repairRows fs rest

/-- Repairs what findings are about, in the order in which their lines first appear. -/
def all (fs : List Finding) : Repair Unit :=
  repairRows fs (fs.map (·.line - 1)).eraseDups

/-- The rows of a text as they are repaired, with their tabs written out. -/
def rowsOf (text : String) : List String :=
  (Text.rows text.toList).map fun row => String.ofList (Text.expandTabs row)

end Repair

end ShellAudit
