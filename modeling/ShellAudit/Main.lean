-- SUMMARY: The command line program.
import ShellAudit.CommandLine.Run

/-!
# The program

The outermost layer. It reads the files that the arguments name, runs the
command line, and writes what the run has changed. The report of the linter is
taken from the standard input. The grammar is the empty table and the shell
answers nothing, so no other program is started.
-/

namespace ShellAudit.Program

/-- The bytes of the file at a path, if it can be read. -/
def bytes? (path : String) : IO (Option ByteArray) := do
  try return some (← IO.FS.readBinFile path)
  catch _ => return none

/-- Whether a path leads to something. -/
def leads (path : String) : IO Bool := do
  try
    let _ ← IO.FS.Handle.mk path .read
    return true
  catch _ => return false

/-- The full name of a path, in which two dots drop the component before them. -/
def fullName (home : List String) (path : String) : List String :=
  (Path.proper path).foldl (fun dir c => if c = ".." then dir.dropLast else dir ++ [c])
    (if Path.isAbsolute path then [] else home)

/-- The path of a full name. -/
def pathOf (name : List String) : String := "/" ++ "/".intercalate name

/-- A name and the names of the directories that it is in. -/
def ancestry (name : List String) : List (List String) :=
  (List.range (name.length + 1)).map name.take

/-- The files and directories that paths lead to. -/
def load (home : List String) (paths : List String) : IO FileStore := do
  let names := (paths.flatMap (ancestry ∘ fullName home)).eraseDups.filter fun name =>
    (FileStore.device? name).isNone
  let files ← names.filterMapM fun name => do return (← bytes? (pathOf name)).map (name, ·)
  let directories ← names.filterM fun name => do
    return !files.any (·.1 == name) && (← leads (pathOf name))
  return { home := home, files := files, directories := directories }

/-- The linter whose report is already there, and a shell that answers nothing. -/
def tools (report : ByteArray) : Tools IO where
  lint _ := return report
  shell _ := return { output := "", errors := "" }

/-- Shows how a run has ended, and keeps its files. -/
def conclude (before : FileStore) (outcome : CommandLine.Outcome) : IO Unit := do
  for (name, bytes) in outcome.files.changedSince before do
    IO.FS.writeBinFile (pathOf name) bytes
  IO.print outcome.output
  IO.eprint outcome.errors
  if outcome.exit = 2 then IO.eprintln (CommandLine.helpText "shellaudit")
  if let some message := outcome.fault.bind Fault.message? then IO.eprintln message

end ShellAudit.Program

def main (arguments : List String) : IO UInt32 := do
  let report ← (← IO.getStdin).readBinToEnd
  let home := ShellAudit.Path.proper (← IO.currentDir).toString
  let files ← ShellAudit.Program.load home arguments
  let outcome ←
    ShellAudit.CommandLine.run (ShellAudit.Program.tools report) ⟨[]⟩ "shellaudit" files arguments
  ShellAudit.Program.conclude files outcome
  return outcome.exit.toUInt32
