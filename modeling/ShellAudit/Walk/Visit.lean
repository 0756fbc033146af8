-- SUMMARY: The walk over a syntax tree, one node kind at a time.
import ShellAudit.Walk.Test
import ShellAudit.Walk.Value

/-!
# Visiting nodes

The walk visits a tree from left to right and records what it finds. Function
definitions are only noted; a body is walked when a command calls the function,
once for each definition. Where the walk has to leave the tree, it asks `jump`.
-/

namespace ShellAudit.Walk

/-! ## Definitions and declarations -/

/-- Notes a function under the first word of its definition. -/
def defineFunction (children : List Node) : Walk Unit :=
  match children.find? (·.kind = .word) with
  | none => throw .unnamedFunction
  | some node => do
    let name ← text node
    if name = "" then throw .unnamedFunction else define name children

/-- The variable name that a node is by itself. -/
def ownName (node : Node) : Walk (List String) :=
  if node.kind = .variableName then do
    let name ← text node
    return [name]
  else return []

mutual

/-- The variable names below a node, in the order of the text. -/
def variableNames : Node → Walk (List String)
  | node@⟨_, _, _, _, _, children⟩ => do
    let own ← ownName node
    let rest ← variableNamesAll children
    return own ++ rest

def variableNamesAll : List Node → Walk (List String)
  | [] => return []
  | n :: ns => do
    let first ← variableNames n
    let rest ← variableNamesAll ns
    return first ++ rest

end

/-- Records the pair that a declared word is put together from. -/
def declarePair (ctx : Context) (node : Node) : Walk Unit := do
  match ← variableNames node with
  | [first, second] =>
    recordPair
      { first := first, second := second, line := node.lineIn ctx, column := node.columnIn ctx }
  | _ => return ()

/-- Records a pair for each declared word that is put together from two variables. -/
def declarePairs (ctx : Context) : List Node → Walk Unit
  | [] => return ()
  | n :: ns => do
    when (n.kind = .concatenation) (declarePair ctx n)
    declarePairs ctx ns

/-- The name under which a variable is local to the function of the context. -/
def localName (ctx : Context) (name : List Char) : String :=
  ctx.function ++ "." ++ String.ofList name

/-- Brings a local name into scope and adds it to those already declared. -/
def declareLocal (locals : NameSet) (name : String) : Walk NameSet := do
  declare name
  return locals.insert name

/-- The first character of a declaration. -/
def firstCharacter (declaration : Node) : Walk Char := do
  let written ← text declaration
  match written.toList with
  | [] => throw .emptyDeclaration
  | c :: _ => return c

/-- Brings the local variables among the children of a declaration into scope. A
variable that is declared without a value is named by the first character of
the declaration. -/
def declareLocals (jump : Jump → Walk Unit) (ctx : Context) (declaration : Node)
    (locals : NameSet) : List Node → Walk NameSet
  | [] => return locals
  | n :: ns =>
    match n.kind with
    | .variableAssignment => do
      let written ← text n
      let name := localName ctx (Text.beforeEquals written.toList)
      let value ← lastValue jump ctx n.children
      assignTaint name value
      let locals ← declareLocal locals name
      declareLocals jump ctx declaration locals ns
    | .variableName => do
      let initial ← firstCharacter declaration
      let locals ← declareLocal locals (localName ctx [initial])
      declareLocals jump ctx declaration locals ns
    | _ => declareLocals jump ctx declaration locals ns

/-- Takes local names out of scope. -/
def retractAll : List String → Walk Unit
  | [] => return ()
  | name :: names => do
    retract name
    retractAll names

/-- Walks a declaration of local variables. They are in scope until it ends. -/
def localDeclaration (jump : Jump → Walk Unit) (ctx : Context) (node : Node) : Walk Unit := do
  let locals ← declareLocals jump ctx node ∅ node.children
  retractAll locals.names

/-- Walks an assignment that stands by itself. -/
def assignment (jump : Jump → Walk Unit) (ctx : Context) (node : Node) : Walk Unit := do
  let written ← text node
  let target := Text.beforeEquals written.toList
  let name ← resolve (String.ofList target)
  when ('[' ∈ target) (subscript ctx node)
  let value ← lastValue jump ctx node.children
  recordAssignment
    { name := name
      value := some value
      line := node.lineIn ctx
      column := node.columnIn ctx
      forCommand := false }
  assignTaint name value

/-- Records an expansion as the command that it is run as. -/
def runExpansion (ctx : Context) (node : Node) : Walk Unit := do
  let written ← text node
  recordCommand
    { name := String.ofList (written.toList.dropWhile (· = '$'))
      arguments := []
      line := node.lineIn ctx
      column := node.columnIn ctx }

/-- Walks an expansion. One that stands where a command stands is recorded as a
command too. -/
def expansionStatement (ctx : Context) (runs : Bool) (node : Node) : Walk Unit := do
  expansion ctx node
  when (runs = true) (runExpansion ctx node)

/-- The token that opens an expression: the name of the first child's kind. -/
def opener : List Node → Walk String
  | [] => throw .missingChild
  | n :: _ => return n.kind.name

/-- Whether the first child makes a declaration one of local variables. -/
def isLocal : List Node → Walk Bool
  | [] => throw .missingChild
  | n :: _ => return n.kind = .localKeyword

/-- The name that a command calls: the text of the first child of its name. -/
def callee (name : Node) : Walk String :=
  match name.children with
  | [] => throw .missingChild
  | word :: _ => text word

/-! ## The walk -/

mutual

/-- Visits a node; `runs` tells whether an expansion here stands where a command
stands. -/
def visit (jump : Jump → Walk Unit) (ctx : Context) (runs : Bool) : Node → Walk Unit
  | node@⟨kind, _, _, _, _, children⟩ => do
    countVisit
    match kind with
    | .functionDefinition => defineFunction children
    | .command => do
      let _ ← command jump ctx node
      visitCommand jump ctx true children
    | .testCommand => do
      let opening ← opener children
      test ctx opening false node
    | .arithmeticExpansion => do
      let opening ← opener children
      arithmetic ctx opening false node
    | .declarationCommand => do
      declarePairs ctx children
      if ← isLocal children then localDeclaration jump ctx node
      else visitAll jump ctx kind true children
    | .variableAssignment => assignment jump ctx node
    | .subscript => subscript ctx node
    | .ifStatement => visitBranches jump ctx kind true children
    | .caseStatement => visitBranches jump ctx kind true children
    | _ =>
      if kind.isExpansion then expansionStatement ctx runs node
      else visitAll jump ctx kind true children

/-- Visits the children of a node of kind `parent` one after the other. -/
def visitAll (jump : Jump → Walk Unit) (ctx : Context) (parent : Kind) (first : Bool) :
    List Node → Walk Unit
  | [] => return ()
  | n :: ns => do
    visit jump ctx (parent.runsChild first) n
    visitAll jump ctx parent false ns

/-- Visits each child on its own copy of the tainted names and joins the results. -/
def visitBranches (jump : Jump → Walk Unit) (ctx : Context) (parent : Kind) (first : Bool) :
    List Node → Walk Unit
  | [] => return ()
  | n :: ns => do
    joinTaint (visit jump ctx (parent.runsChild first) n)
    visitBranches jump ctx parent false ns

/-- Visits the children of a command. A name that is a function's leads into its
body. An assignment, a shell, or a function that has been entered before ends
the visit. -/
def visitCommand (jump : Jump → Walk Unit) (ctx : Context) (first : Bool) :
    List Node → Walk Unit
  | [] => return ()
  | n :: ns =>
    match n.kind with
    | .variableAssignment => return ()
    | .commandName => do
      let name ← callee n
      if shells.contains name then return ()
      else
        match ← lookup name with
        | some f =>
          if f.entered then return ()
          else do
            enter name
            jump (.body f.body { ctx with function := name })
            visitCommand jump ctx false ns
        | none => do
          visit jump ctx (Kind.command.runsChild first) n
          visitCommand jump ctx false ns
    | _ => do
      visit jump ctx (Kind.command.runsChild first) n
      visitCommand jump ctx false ns

end

end ShellAudit.Walk
