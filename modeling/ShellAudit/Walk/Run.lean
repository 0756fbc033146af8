-- SUMMARY: Jumps into function bodies and command strings, and the survey of a whole script.
import ShellAudit.Syntax.Grammar
import ShellAudit.Walk.Simple
import ShellAudit.Walk.Visit

/-!
# Running a walk

A jump is a walk of its own, which may jump again. How deep jumps are nested is
bounded by a budget that is computed from the trees, so that a walk ends whatever
the trees are.
-/

namespace ShellAudit.Walk

/-! ## Command strings -/

/-- The text between the quotes around a command string. A string that is not
between two quotes of one kind is taken as it is. -/
def unquote (s : List Char) : List Char :=
  if (s.head? = some '\x27' ∧ s.getLast? = some '\x27') ∨ (s.head? = some '"' ∧ s.getLast? = some '"')
  then (s.drop 1).dropLast
  else s

/-- Whether a command string stands between single quotes, so that the shell that
runs it sees it as it is written. -/
def isVerbatim (s : List Char) : Bool :=
  s.head? = some '\x27' ∧ s.getLast? = some '\x27'

/-- Runs a step. If it stops with a fault, `recover` takes over; only the
exhaustion of the budget is passed on. -/
def recovering (step recover : Walk Unit) : Walk Unit := do
  try step
  catch fault => if fault = .exhausted then throw fault else recover

/-- Records the simple variables of a text. -/
def recordSimple (line : Int) (text : String) : Walk Unit :=
  modify fun s => { s with used := s.used ++ simpleUses line text }

/-- Takes the mark of being for one command off the first assignment of a line
that has it. -/
def unmark (line : Int) : Walk Unit :=
  modify fun s => { s with assigned := unmarkFirst line s.assigned }

/-- Walks a command string. Unless it is verbatim, the outer shell has expanded
it already, so the first assignment for a command on its line is none. If the
string cannot be walked, its simple variables are recorded. -/
def commandString (parse? : String → Option Node) (visitRoot : Node → Walk Unit) (line : Int)
    (script : String) : Walk Unit :=
  if script = "" then return ()
  else recovering
    (do
      when (isVerbatim script.toList = false) (unmark line)
      match parse? (String.ofList (unquote script.toList)) with
      | some root => visitRoot root
      | none => throw .parseFailed)
    (recordSimple line script)

/-! ## Jumps -/

/-- Goes to another place, with `budget` as the greatest depth of further jumps. -/
def follow (parse? : String → Option Node) : Nat → Jump → Walk Unit
  | 0, _ => throw .exhausted
  | budget + 1, .body parts ctx =>
    visitAll (follow parse? budget) ctx .functionDefinition true parts
  | budget + 1, .script script ctx =>
    commandString parse? (visit (follow parse? budget) ctx false) ctx.line script

/-- The greatest depth of jumps in a walk of some nodes. -/
def budgetFor (g : Grammar) (functions : FunctionTable) (nodes : List Node) : Nat :=
  g.budget (Node.loadAll (nodes ++ functions.flatMap (·.body)))

/-- Follows the jumps of a walk that is about to visit some nodes. -/
def jumping {α : Type} (g : Grammar) (nodes : List Node) (step : (Jump → Walk Unit) → Walk α) :
    Walk α := do
  step (follow g.parse? (budgetFor g (← get).functions nodes))

/-- Walks a tree from its root. -/
def root (g : Grammar) (ctx : Context) (node : Node) : Walk Unit :=
  jumping g [node] fun jump => visit jump ctx false node

/-- Walks the text of a whole script. -/
def script (g : Grammar) (text : String) : Walk Unit :=
  match g.parse? text with
  | some node => root g {} node
  | none => throw .parseFailed

end Walk

/-- The outcome of surveying a script: the survey, or the fault that stopped it,
and the notes made until then. -/
structure Surveyed where
  result : Except Fault Survey
  notes : List String

/-- Surveys a script. -/
def Survey.ofScript (g : Grammar) (text : String) : Surveyed :=
  match (Walk.script g text).exec {} with
  | (.ok (), s) => ⟨.ok s.toSurvey, s.notes⟩
  | (.error fault, s) => ⟨.error fault, s.notes⟩

end ShellAudit
