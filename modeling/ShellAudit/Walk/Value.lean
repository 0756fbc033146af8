-- SUMMARY: The reading of values, and the recording of the commands in them.
import ShellAudit.Walk.Expansion

/-!
# Values and commands

Reading a value collects its parts in the order of the text. A command inside
the value is recorded on the way, and recording a command reads the values of
the assignments before its name; so the two belong together.
-/

namespace ShellAudit.Walk

/-- What has been seen of a command: its name with the column of the name, and
its arguments. -/
structure Draft where
  name : String := ""
  column : Nat := 0
  arguments : List String := []
deriving Inhabited

/-- Characters that are taken off both ends of a command's name. -/
def decoratesName (c : Char) : Bool := c = '$' || c = '\x27' || c = '"'

/-- Whether an argument is written as a variable, quotes around it aside. -/
def isVariable (argument : String) : Bool :=
  (Text.trim (fun c => c = '"' || c = '\x27') argument.toList).head? = some '$'

/-- The key under which the taint of an assignment for one command is kept. -/
def commandKey (name : String) (line : Int) : String :=
  name ++ "_cmd_ctx_" ++ toString line

/-- The draft with the name that a node gives. The name is the text of the
node's first child, or its own if it has none. -/
def draftName (draft : Draft) (node : Node) : Walk Draft := do
  let written ← text (node.children.head?.getD node)
  let name := String.ofList (Text.trim decoratesName written.toList)
  return { draft with name := name, column := node.column }

/-- The draft with the argument that a node is; an argument without text is
left out. -/
def draftArgument (draft : Draft) (node : Node) : Walk Draft := do
  let written ← text node
  if written = "" then return draft
  else return { draft with arguments := draft.arguments ++ [written] }

/-- The shells whose `-c` argument is walked. -/
def shells : List String := ["bash", "sh"]

/-- The script among the arguments of a shell: what comes after a leading `-c`. -/
def scriptArgument? : List String → Option String
  | "-c" :: script :: _ => some script
  | _ => none

/-- Goes to the text that a command tells a shell to run. -/
def runNested (jump : Jump → Walk Unit) (ctx : Context) (c : Command) : Walk Unit :=
  match scriptArgument? c.arguments with
  | some script =>
    if shells.contains c.name then
      jump (.script script
        { function := ctx.function
          line := c.line
          column := ctx.column + c.column + c.name.length + 1 + 4 })
    else return ()
  | none => return ()

/-- Taints a variable that `read` assigns to. -/
def readVariable (ctx : Context) (node : Node) (argument : String) : Walk Unit := do
  let name ← resolve argument
  recordAssignment
    { name := name
      value := some { content := "", parts := [.input] }
      line := node.lineIn ctx
      column := node.columnIn ctx
      forCommand := false }
  taint name

/-- Taints the variables that `read` assigns to. -/
def readInto (ctx : Context) (node : Node) : List String → Walk Unit
  | [] => return ()
  | argument :: rest => do
    when (argument.toList.head? ≠ some '-') (readVariable ctx node argument)
    readInto ctx node rest

/-- Records a command that has a name, and what it does to variables. -/
def record (jump : Jump → Walk Unit) (ctx : Context) (node : Node) (draft : Draft) :
    Walk Command := do
  let name ← resolve draft.name
  let c : Command :=
    { name := name
      arguments := draft.arguments
      line := node.lineIn ctx
      column := ctx.column + draft.column }
  recordCommand c
  when (name = "read") (readInto ctx node draft.arguments)
  runNested jump ctx c
  return c

/-- Records the command of a draft, if it has a name. -/
def finish (jump : Jump → Walk Unit) (ctx : Context) (node : Node) (draft : Draft) :
    Walk (Option Command) :=
  if draft.name = "" then return none
  else do
    let c ← record jump ctx node draft
    return some c

/-- The part of a value that a node is by itself. If it is a command, `recorded`
records it. -/
def ownPart (ctx : Context) (recorded : Walk (Option Command)) (node : Node) : Walk (List Part) :=
  match node.kind with
  | .expansion => do
    let part ← liftExcept (braced node (some (frameOf node)))
    return [part]
  | .simpleExpansion => do
    let written ← text node
    return [.plain (String.ofList (Text.trim (· = '$') written.toList)) (some (frameOf node))]
  | .command => do
    let c ← recorded
    return c.toList.map .output
  | .subscript => do
    subscript ctx node
    return []
  | _ => return []

mutual

/-- The parts of a value, in the order of the text. -/
def parts (jump : Jump → Walk Unit) (ctx : Context) : Node → Walk (List Part)
  | node@⟨_, _, _, _, _, children⟩ => do
    let own ← ownPart ctx (do finish jump ctx node (← draftChildren jump ctx {} children)) node
    let rest ← partsAll jump ctx children
    return own ++ rest

def partsAll (jump : Jump → Walk Unit) (ctx : Context) : List Node → Walk (List Part)
  | [] => return []
  | n :: ns => do
    let first ← parts jump ctx n
    let rest ← partsAll jump ctx ns
    return first ++ rest

/-- Reads the children of a command. The assignments among them are recorded as
being for this command only. -/
def draftChildren (jump : Jump → Walk Unit) (ctx : Context) (draft : Draft) :
    List Node → Walk Draft
  | [] => return draft
  | node@⟨kind, _, row, _, _, children⟩ :: rest =>
    match kind with
    | .variableAssignment => do
      let written ← text node
      let name ← resolve (String.ofList (Text.beforeEquals written.toList))
      let value ← lastValue jump ctx children
      recordAssignment
        { name := name
          value := some value
          line := node.lineIn ctx
          column := node.columnIn ctx
          forCommand := true }
      assignTaint (commandKey name row) value
      draftChildren jump ctx draft rest
    | .commandName => do
      let draft ← draftName draft node
      draftChildren jump ctx draft rest
    | _ =>
      if kind.isArgument then do
        let draft ← draftArgument draft node
        draftChildren jump ctx draft rest
      else draftChildren jump ctx draft rest

/-- The value that the last of the nodes is. -/
def lastValue (jump : Jump → Walk Unit) (ctx : Context) : List Node → Walk Value
  | [] => throw .missingChild
  | [node] => do
    let parts ← parts jump ctx node
    let content ← text node
    return { content := content, parts := parts }
  | _ :: n :: ns => lastValue jump ctx (n :: ns)

end

/-- The value that a node is. -/
def value (jump : Jump → Walk Unit) (ctx : Context) (node : Node) : Walk Value :=
  lastValue jump ctx [node]

/-- Records the command that a node is, with the assignments before its name. -/
def command (jump : Jump → Walk Unit) (ctx : Context) (node : Node) : Walk (Option Command) := do
  let draft ← draftChildren jump ctx {} node.children
  finish jump ctx node draft

end ShellAudit.Walk
