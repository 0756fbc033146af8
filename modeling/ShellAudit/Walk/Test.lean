-- SUMMARY: The variables of tests and arithmetic expressions that the shell evaluates.
import ShellAudit.Walk.Expansion

/-!
# Tests and arithmetic

Some operators make the shell evaluate their operands as arithmetic, which runs
the command substitutions in array indices. Once such an operator is among the
children of a node, every variable name below that node is injectable.
-/

namespace ShellAudit.Walk

/-- The operators of a test that evaluate their operands or look at files. -/
def armingOperators : List String :=
  ["-a", "-b", "-c", "-d", "-e", "-f", "-g", "-G", "-h", "-k", "-L", "-N", "-o", "-O", "-p", "-r",
    "-s", "-S", "-t", "-u", "-v", "-w", "-x", "-z", "-ef", "-ot", "-eq", "-ne", "-gt", "-lt", "-ge",
    "-le"]

/-- Records a variable name as injectable. -/
def injectable (ctx : Context) (opener : String) (node : Node) : Walk Unit := do
  let name ← resolve (← text node)
  recordInjectable
    { name := name, line := node.lineIn ctx, column := node.columnIn ctx, opener := opener }

/-- Whether one of the nodes is an arming operator of a test. The text of every
operator is looked at. -/
def armsTest : List Node → Walk Bool
  | [] => return false
  | n :: ns =>
    if n.kind = .testOperator then do
      let written ← text n
      let more ← armsTest ns
      return armingOperators.contains written || more
    else armsTest ns

/-- Records what a node of a test is by itself. -/
def testOwn (ctx : Context) (opener : String) (armed : Bool) (node : Node) : Walk Unit :=
  if armed && node.kind = .variableName then injectable ctx opener node
  else if node.kind.isExpansion then expansion ctx node
  else return ()

mutual

/-- Records the injectable variables and the expansions of a test. -/
def test (ctx : Context) (opener : String) (armed : Bool) : Node → Walk Unit
  | node@⟨_, _, _, _, _, children⟩ => do
    testOwn ctx opener armed node
    let arms ← armsTest children
    testAll ctx opener (armed || arms) children

def testAll (ctx : Context) (opener : String) (armed : Bool) : List Node → Walk Unit
  | [] => return ()
  | n :: ns => do
    test ctx opener armed n
    testAll ctx opener armed ns

end

mutual

/-- Records the injectable variables of an arithmetic expression. -/
def arithmetic (ctx : Context) (opener : String) (armed : Bool) : Node → Walk Unit
  | node@⟨kind, _, _, _, _, children⟩ => do
    when (armed ∧ kind = .variableName) (injectable ctx opener node)
    arithmeticAll ctx opener (armed || children.any (·.kind.isArithmeticOperator)) children

def arithmeticAll (ctx : Context) (opener : String) (armed : Bool) : List Node → Walk Unit
  | [] => return ()
  | n :: ns => do
    arithmetic ctx opener armed n
    arithmeticAll ctx opener armed ns

end

end ShellAudit.Walk
