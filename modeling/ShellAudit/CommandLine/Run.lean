-- SUMMARY: What the command line does, and how it ends.
import ShellAudit.CommandLine.Options
import ShellAudit.Job
import ShellAudit.Report.Json

/-!
# Running the command line

The report is printed or saved to a file. After that the script is repaired if
this is asked for. What is said is shown without colours. Wrong use ends with
code 2, a fault with code 1.
-/

namespace ShellAudit.CommandLine

/-- How a run ends. -/
structure Outcome where
  exit : Nat
  output : String := ""
  errors : String := ""
  files : FileStore
  fault : Option Fault := none
deriving Inhabited

def versionText : String := "BashGuard, version 0.1.0"

/-- The explanation of the switches; `program` is the name of the program. -/
def helpText (program : String) : String :=
  "\n".intercalate
    ["Usage: " ++ program ++ " [OPTIONS] SCRIPT_PATH",
      "",
      "  BashGuard: A static analysis tool for Bash scripts.",
      "",
      "  Analyze a Bash script for security vulnerabilities.",
      "",
      "Options:",
      "  -o, --output PATH         Output file for the report",
      "  -f, --format [text|json]  Output format",
      "  -v, --verbose             Enable verbose output",
      "  --fix                     Automatically fix issues in the script",
      "  --fix-output PATH         Output file for the fixed script. If not",
      "                            specified, the script will be overwritten.",
      "  --version                 Show the version and exit.",
      "  --help                    Show this message and exit."]

variable {m : Type → Type} [Monad m]

/-- Prints a line without colours. -/
def echo (line : String) : Job m Unit := Job.say (Colour.strip line)

/-- Saves a report to a file, or prints it. -/
def deliver (output : Option String) (report : String) : Job m Unit :=
  match output with
  | some output => do
    Job.writeFile (Path.normalize output) report
    echo ("Report saved to " ++ Path.normalize output)
  | none => echo report

/-- Repairs the script at a path and says so. -/
def repair (path output : String) (findings : List Finding) : Job m Unit := do
  echo "Starting to fix vulnerabilities"
  echo "========================================\n"
  Job.repairFile path output findings
  echo "Code has been fixed"

/-- Audits the script at a path, reports, and repairs it. -/
def auditJob (tools : Tools m) (g : Grammar) (path : String) (o : Options) : Job m Unit := do
  let findings ← Job.auditFile tools g { verbose := o.verbose, debug := true } path
  let report ← Job.liftExcept (Report.write o.format (some path) findings)
  deliver o.output report
  if o.fix then repair path (o.fixOutput.getD path) findings else return ()

/-- Answers a request. -/
def answer (tools : Tools m) (g : Grammar) (program : String) (files : FileStore) :
    Request → m Outcome
  | .misuse => return { exit := 2, files := files }
  | .nullInPath => return { exit := 1, files := files, fault := some .nullInPath }
  | .version => return { exit := 0, output := versionText ++ "\n", files := files }
  | .help => return { exit := 0, output := helpText program ++ "\n", files := files }
  | .audit o =>
    match files.locate o.script with
    | .ok (.file _ _) => do
      let (result, s) ← (auditJob tools g (Path.normalize o.script) o).exec { files := files }
      match result with
      | .ok () => return { exit := 0, output := s.printed, files := s.files }
      | .error fault => return { exit := 1, output := s.printed, files := s.files, fault := some fault }
    | .ok (.device _) =>
      return { exit := 1
               errors := Colour.strip ("Error: " ++ Path.normalize o.script ++ " is not a file\n")
               files := files }
    | _ => return { exit := 2, files := files }

/-- Runs the command line with some arguments. -/
def run (tools : Tools m) (g : Grammar) (program : String) (files : FileStore)
    (arguments : List String) : m Outcome :=
  answer tools g program files (Request.ofList arguments)

end ShellAudit.CommandLine
