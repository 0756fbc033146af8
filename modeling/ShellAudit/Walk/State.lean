-- SUMMARY: The state of a walk, and the single steps that change it.
import ShellAudit.Fault
import ShellAudit.Scope
import ShellAudit.Taint

/-!
# The state of a walk

A walk over a syntax tree keeps a survey, the names in scope, the debug notes it
makes and the number of nodes it has visited. When it stops with a fault, what it
has done so far stays.
-/

namespace ShellAudit.Walk

/-- What a walk knows. -/
structure State extends Survey where
  scope : NameSet := ∅
  notes : List String := []
  visits : Nat := 0
deriving Inhabited

/-- Where a walk stands: the function whose body it is in, and the line and
column that the positions of its nodes are counted from. -/
structure Context where
  function : String := ""
  line : Int := 0
  column : Int := 0
deriving DecidableEq, Repr, Inhabited

/-- A place outside the node being walked that the walk goes to. -/
inductive Jump where
  /-- The parts of a function's definition. -/
  | body (parts : List Node) (context : Context)
  /-- A text that a shell is told to run. -/
  | script (text : String) (context : Context)
deriving Inhabited

end Walk

/-- A step of a walk: it changes the state and may stop with a fault. -/
abbrev Walk := ExceptT Fault (StateM Walk.State)

namespace Walk

/-- What a walk gives and leaves behind when it starts from a state. -/
def exec {α : Type} (walk : Walk α) (s : State) : Except Fault α × State :=
  (ExceptT.run walk).run s

@[simp] theorem exec_pure {α : Type} (a : α) (s : State) : exec (pure a) s = (.ok a, s) := rfl

@[simp] theorem exec_throw {α : Type} (fault : Fault) (s : State) :
    exec (throw fault : Walk α) s = (.error fault, s) := rfl

@[simp] theorem exec_get (s : State) : exec get s = (.ok s, s) := rfl

@[simp] theorem exec_modify (f : State → State) (s : State) : exec (modify f) s = (.ok (), f s) := rfl

/-- A fault ends a walk, and what has been done so far stays. -/
theorem exec_bind {α β : Type} (walk : Walk α) (next : α → Walk β) (s : State) :
    (walk >>= next).exec s =
      match walk.exec s with
      | (.ok a, t) => (next a).exec t
      | (.error fault, t) => (.error fault, t) := by
  simp only [exec, ExceptT.run_bind, StateT.run_bind]
  rcases (ExceptT.run walk).run s with ⟨_ | _, t⟩ <;> rfl

/-- A walk that recovers from a fault goes on from where the fault arose. -/
theorem exec_tryCatch {α : Type} (walk : Walk α) (recover : Fault → Walk α) (s : State) :
    (tryCatch walk recover).exec s =
      match walk.exec s with
      | (.ok a, t) => (.ok a, t)
      | (.error fault, t) => (recover fault).exec t := by
  simp only [exec, ExceptT.run_tryCatch, StateT.run_bind]
  rcases (ExceptT.run walk).run s with ⟨_ | _, t⟩ <;> rfl

/-- Takes a step if a condition holds. -/
def when (p : Prop) [Decidable p] (step : Walk Unit) : Walk Unit :=
  if p then step else pure ()

/-- A step that only asks for a result. -/
def liftExcept {α : Type} (x : Except Fault α) : Walk α := ExceptT.mk (pure x)

/-! ## Names and texts -/

/-- The text of a node. -/
def text (node : Node) : Walk String :=
  match node.text with
  | some text => pure text
  | none => throw .notText

/-- The name in scope that a written name means. A name that means none of the
qualified ones is put in scope itself. -/
def resolve (name : String) : Walk String := do
  match Scope.qualified? (← get).scope name with
  | some qualified => return qualified
  | none =>
    modify fun s => { s with scope := s.scope.insert name }
    return name

theorem exec_text {node : Node} {written : String} (h : node.text = some written) (s : State) :
    (text node).exec s = (.ok written, s) := by
  rw [text, h, exec_pure]

theorem exec_resolve_eq (name : String) (s : State) :
    (resolve name).exec s =
      (.ok (Scope.meaning s.scope name), { s with scope := Scope.learned s.scope name }) := by
  unfold resolve Scope.meaning Scope.learned
  rw [exec_bind, exec_get]
  cases h : Scope.qualified? s.scope name <;> simp only [h] <;> rfl

/-- Puts a name in scope. -/
def declare (name : String) : Walk Unit :=
  modify fun s => { s with scope := s.scope.insert name }

/-- Takes a name that must be in scope out of it. -/
def retract (name : String) : Walk Unit := do
  if name ∈ (← get).scope then modify fun s => { s with scope := s.scope.erase name }
  else throw (.unscopedLocal name)

/-! ## Taint -/

/-- The variable whose assignments are noted for debugging. -/
def watched : String := "WORKDIR"

/-- Taints or cleans a name according to the value assigned to it. -/
def assignTaint (name : String) (value : Value) : Walk Unit :=
  modify fun s =>
    let notes :=
      match value.carrier? s.tainted with
      | some part => if name = watched then s.notes ++ ["sensitive_part: " ++ part.describe] else s.notes
      | none => s.notes
    { s with tainted := s.tainted.assign name value, notes := notes }

def taint (name : String) : Walk Unit :=
  modify fun s => { s with tainted := s.tainted.insert name }

/-- Runs a step on the tainted names as they are and adds what it taints. What
the step cleans stays tainted, and if it stops, its taint is forgotten. -/
def joinTaint (step : Walk Unit) : Walk Unit := do
  let before := (← get).tainted
  try step
  catch fault =>
    modify fun s => { s with tainted := before }
    throw fault
  modify fun s => { s with tainted := before.union s.tainted }

/-- A joined step changes the tainted names as said, and all else as the step does. -/
theorem exec_joinTaint (step : Walk Unit) (s : State) :
    (joinTaint step).exec s =
      match step.exec s with
      | (.ok (), t) => (.ok (), { t with tainted := s.tainted.union t.tainted })
      | (.error fault, t) => (.error fault, { t with tainted := s.tainted }) := by
  simp only [joinTaint, exec_bind, exec_get, exec_tryCatch]
  rcases step.exec s with ⟨_ | _, t⟩ <;> rfl

/-! ## Records -/

def recordAssignment (a : Assignment) : Walk Unit :=
  modify fun s => { s with assigned := s.assigned ++ [a] }

def recordUse (u : Use) : Walk Unit :=
  modify fun s => { s with used := s.used ++ [u] }

def recordCommand (c : Command) : Walk Unit :=
  modify fun s => { s with commands := s.commands ++ [c] }

def recordSubscript (x : Subscript) : Walk Unit :=
  modify fun s => { s with subscripts := s.subscripts ++ [x] }

def recordInjectable (i : Injectable) : Walk Unit :=
  modify fun s => { s with injectable := s.injectable ++ [i] }

def recordPair (p : Pair) : Walk Unit :=
  modify fun s => { s with pairs := s.pairs ++ [p] }

/-- Takes the mark off the first assignment of a line that is marked as being
for one command. -/
def unmarkFirst (line : Int) : List Assignment → List Assignment
  | [] => []
  | a :: as =>
    if a.line = line ∧ a.forCommand then { a with forCommand := false } :: as
    else a :: unmarkFirst line as

/-- Counts the visit of a node. -/
def countVisit : Walk Unit :=
  modify fun s => { s with visits := s.visits + 1 }

/-! ## Functions -/

def define (name : String) (body : List Node) : Walk Unit :=
  modify fun s => { s with functions := s.functions.define name body }

def enter (name : String) : Walk Unit :=
  modify fun s => { s with functions := s.functions.enter name }

/-- The function of a name. -/
def lookup (name : String) : Walk (Option Function) := do
  return (← get).functions.get? name

end Walk

namespace Node

/-- The absolute line of a node. -/
def lineIn (node : Node) (ctx : Walk.Context) : Int := ctx.line + node.row

/-- The absolute column of a node. -/
def columnIn (node : Node) (ctx : Walk.Context) : Int := ctx.column + node.column

end Node

end ShellAudit
