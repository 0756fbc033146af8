-- SUMMARY: The check for user input that reaches a place where it is run.
import ShellAudit.Check.Expansion
import ShellAudit.Probe
import ShellAudit.Walk.Value

/-!
# Command injection

User input is run when it is the name of a command, when `eval` or `source` is
given it, when it stands in an array index, when a test evaluates it, and when a
declaration takes the declared name from it.
-/

namespace ShellAudit.Check

/-- The tainted names together with the positional parameters. -/
def withParameters (tainted : NameSet) : NameSet :=
  tainted.insertAll ["1", "2", "3", "4", "5", "6", "7", "8", "9"]

/-- The finding for user input that is run. -/
def injected (script : Script) (line column : Int) (content : Option String)
    (recommendation : String) : Except Fault Finding :=
  Finding.place script.rows
    { category := .commandInjection
      severity := .high
      description := Wording.commandInjection
      file := script.path
      line := line
      column := some column
      content := content
      recommendation := some recommendation }

/-! ## Commands -/

/-- A name without the quotes around it and the dollar signs before it. -/
def stripName (s : String) : String :=
  String.ofList ((Text.trim (fun c => c = '"' || c = '\x27') s.toList).dropWhile (· = '$'))

/-- Whether a name is assigned on the line of a command, for a command only. -/
def isAssignedFor (assigned : List Assignment) (c : Command) (name : String) : Bool :=
  assigned.any fun a => a.name = name && a.forCommand && a.line = c.line

/-- The key under which the taint of a name is found at a command. -/
def taintKey (assigned : List Assignment) (c : Command) (name : String) : String :=
  if isAssignedFor assigned c name then Walk.commandKey name c.line else name

/-- Commands that are never taken for variables. -/
def wellKnown : List String :=
  ["cd", "echo", "exit", "cp", "mv", "rm", "ls", "cat", "grep", "find", "mktemp"]

/-- A character in lower case, as far as `wellKnown` needs it: the Kelvin sign is
a `k`. -/
def lowerCase (c : Char) : Char := if c.toNat = 0x212A then 'k' else c.toLower

/-- Whether a command is left out although its name is a tainted variable: on a
comment for the kernel or a blank line, alone on its line, or well known. -/
def isExempt (c : Command) (name : String) (line : List Char) : Bool :=
  ['#', '!'].isPrefixOf line
    || (Text.trim Text.isBlank line).isEmpty
    || (name.toList = Text.trim Text.isBlank line && c.arguments.isEmpty)
    || wellKnown.contains (String.ofList (name.toList.map lowerCase))

/-- Finds that the name of a command is user input. -/
def runsInput (script : Script) (assigned : List Assignment) (tainted : NameSet) (c : Command) :
    Except Fault (List Finding) :=
  let name := stripName c.name
  if c.name.toList.head? = some '$' ∨ taintKey assigned c name ∈ tainted then do
    let line ← lineOrEmpty script.lines c.line
    if isExempt c name line then return []
    else return [← injected script c.line c.column (some (String.ofList line)) Wording.validateInput]
  else .ok []

/-- Commands that run their argument. -/
def evaluators : List String := ["eval", "source"]

/-- Finds that `eval` or `source` is given user input as its first argument. -/
def evaluatesInput (script : Script) (assigned : List Assignment) (tainted : NameSet) (c : Command) :
    Except Fault (List Finding) :=
  match c.arguments with
  | [] => .ok []
  | argument :: _ =>
    if evaluators.contains (Scope.baseName c.name)
        ∧ taintKey assigned c (stripName argument) ∈ tainted then do
      let line ← lineAt script.lines c.line
      return [← Finding.place script.rows
        { category := .commandInjection
          severity := .critical
          description := Wording.evalSource
          file := script.path
          line := c.line
          column := some c.column
          content := some (String.ofList line)
          recommendation := some Wording.avoidEval }]
    else .ok []

/-- Finds what a command runs. -/
def runByCommand (script : Script) (assigned : List Assignment) (tainted : NameSet) (c : Command) :
    Except Fault (List Finding) := do
  let run ← runsInput script assigned tainted c
  let evaluated ← evaluatesInput script assigned tainted c
  return run ++ evaluated

/-! ## Array indices -/

/-- Whether an index mentions a tainted variable. -/
def mentionsTaint (tainted : NameSet) (index : String) : Bool :=
  tainted.names.any fun name => Text.contains index.toList ('$' :: name.toList)

/-- Finds that an array index holds user input. -/
def indexedByInput (script : Script) (tainted : NameSet) (s : Subscript) :
    Except Fault (List Finding) :=
  if mentionsTaint tainted s.index then do
    let line ← lineOrEmpty script.lines (s.line - 1)
    return [← Finding.place script.rows
      { category := .arrayIndexAttack
        severity := .high
        description := Wording.arrayIndex
        file := script.path
        line := s.line - 1
        column := some s.column
        content := some (String.ofList line)
        recommendation := some Wording.validateIndices }]
  else .ok []

/-! ## Declared pairs -/

/-- Finds that a declaration puts a word together from user input. -/
def declaresInput (script : Script) (tainted : NameSet) (p : Pair) : Except Fault (List Finding) :=
  if p.first ∈ tainted ∨ p.second ∈ tainted then do
    return [← injected script p.line p.column none Wording.validateInput]
  else .ok []

/-! ## Tests -/

/-- Finds that a test evaluates user input, by probing it. -/
def evaluatedByTest {m : Type → Type} [Monad m] (shell : String → m Transcript) (script : Script)
    (tainted : NameSet) (i : Injectable) : ExceptT Fault m (List Finding) :=
  if i.name ∈ tainted then do
    let line ← ExceptT.mk (pure (lineAt script.lines i.line))
    let material := Probe.extract (String.ofList line) i.opener i.name
    if ← ExceptT.lift (Probe.attack shell material.attempts i.name) then
      let finding ← ExceptT.mk (pure
        (injected script i.line i.column (some (String.ofList line)) Wording.validateIndices))
      return [finding]
    else return []
  else return []

/-- Finds the tests of a script that evaluate user input. -/
def evaluatedByTests {m : Type → Type} [Monad m] (shell : String → m Transcript) (script : Script)
    (tainted : NameSet) (injectable : List Injectable) : ExceptT Fault m (List Finding) := do
  let found ← injectable.mapM (evaluatedByTest shell script tainted)
  return found.flatten

/-- Finds the places of a script where user input is run. -/
def injection {m : Type → Type} [Monad m] (shell : String → m Transcript) (script : Script)
    (survey : Survey) (tainted : NameSet) : ExceptT Fault m (List Finding) := do
  let commands ← ExceptT.mk (pure (survey.commands.mapM (runByCommand script survey.assigned tainted)))
  let indices ← ExceptT.mk (pure (survey.subscripts.mapM (indexedByInput script tainted)))
  let tests ← evaluatedByTests shell script tainted survey.injectable
  let pairs ← ExceptT.mk (pure (survey.pairs.mapM (declaresInput script tainted)))
  return commands.flatten ++ indices.flatten ++ tests ++ pairs.flatten

end ShellAudit.Check
