-- SUMMARY: Walks that also tell which nodes they visit, note as functions and enter.
import ShellAudit.Proofs.Shifting

/-!
# Trails

A survey does not say which nodes have been visited, nor which definition the body of a
function came from. A trail is a walk that tells this along the way: `Trail.visit` does
what `Walk.visit` does and tells what it does it to. `walk_visit` says that nothing else
is different about it.
-/

namespace ShellAudit.Walk

/-- What can happen to a node of a tree. -/
inductive Event where
  | visited (n : Node)
  /-- The parts of a definition are put into the table of functions. -/
  | defined (n : Node)
  /-- The parts of a definition are walked, since its function is called. -/
  | entered (body : List Node)
  | used (u : Use)

namespace Event

def visited? : Event → Option Node
  | visited n => some n
  | _ => none

def defined? : Event → Option Node
  | defined n => some n
  | _ => none

def entered? : Event → Option (List Node)
  | entered body => some body
  | _ => none

def used? : Event → Option Use
  | used u => some u
  | _ => none

end Event

/-- A walk that tells what happens on the way. -/
def Trail (α : Type) : Type := State → (Except Fault α × State) × List Event

namespace Trail

/-- The walk alone. -/
def walk {α : Type} (trail : Trail α) : Walk α := ExceptT.mk fun s => (trail s).1

theorem exec_walk {α : Type} (trail : Trail α) (s : State) : trail.walk.exec s = (trail s).1 := rfl

/-- A walk of which nothing is told. -/
def silent {α : Type} (walk : Walk α) : Trail α := fun s => (walk.exec s, [])

def tell (e : Event) : Trail Unit := fun s => ((.ok (), s), [e])

instance : Monad Trail where
  pure a := silent (pure a)
  bind trail next := fun s =>
    match trail s with
    | ((.ok a, t), events) => ((next a t).1, events ++ (next a t).2)
    | ((.error fault, t), events) => ((.error fault, t), events)

theorem bind_apply {α β : Type} (trail : Trail α) (next : α → Trail β) (s : State) :
    (trail >>= next) s =
      match trail s with
      | ((.ok a, t), events) => ((next a t).1, events ++ (next a t).2)
      | ((.error fault, t), events) => ((.error fault, t), events) := rfl

/-- Of two walks in sequence nothing is told if nothing is told of either. -/
theorem silent_bind {α β : Type} (walk : Walk α) (next : α → Walk β) :
    silent (walk >>= next) = silent walk >>= fun a => silent (next a) := by
  funext s
  rw [bind_apply]
  simp only [silent, exec_bind]
  rcases walk.exec s with ⟨fault | a, t⟩ <;> rfl

def joinTaint (step : Trail Unit) : Trail Unit := fun s =>
  ((Walk.joinTaint step.walk).exec s, (step s).2)

/-! ## Visits -/

mutual

def visit (jump : Jump → Trail Unit) (ctx : Context) (runs : Bool) : Node → Trail Unit
  | node@⟨kind, _, _, _, _, children⟩ => do
    tell (.visited node)
    silent countVisit
    match kind with
    | .functionDefinition => do
      silent (defineFunction children)
      tell (.defined node)
    | .command => do
      let _ ← silent (command (fun j => (jump j).walk) ctx node)
      visitCommand jump ctx true children
    | .testCommand => do
      let opening ← silent (opener children)
      silent (test ctx opening false node)
    | .arithmeticExpansion => do
      let opening ← silent (opener children)
      silent (arithmetic ctx opening false node)
    | .declarationCommand => do
      silent (declarePairs ctx children)
      if ← silent (isLocal children) then
        silent (localDeclaration (fun j => (jump j).walk) ctx node)
      else visitAll jump ctx kind true children
    | .variableAssignment => silent (assignment (fun j => (jump j).walk) ctx node)
    | .subscript => silent (subscript ctx node)
    | .ifStatement => visitBranches jump ctx kind true children
    | .caseStatement => visitBranches jump ctx kind true children
    | _ =>
      if kind.isExpansion then silent (expansionStatement ctx runs node)
      else visitAll jump ctx kind true children

def visitAll (jump : Jump → Trail Unit) (ctx : Context) (parent : Kind) (first : Bool) :
    List Node → Trail Unit
  | [] => pure ()
  | n :: ns => do
    visit jump ctx (parent.runsChild first) n
    visitAll jump ctx parent false ns

def visitBranches (jump : Jump → Trail Unit) (ctx : Context) (parent : Kind) (first : Bool) :
    List Node → Trail Unit
  | [] => pure ()
  | n :: ns => do
    joinTaint (visit jump ctx (parent.runsChild first) n)
    visitBranches jump ctx parent false ns

def visitCommand (jump : Jump → Trail Unit) (ctx : Context) (first : Bool) :
    List Node → Trail Unit
  | [] => pure ()
  | n :: ns =>
    match n.kind with
    | .variableAssignment => pure ()
    | .commandName => do
      let name ← silent (callee n)
      if shells.contains name then pure ()
      else
        match ← silent (lookup name) with
        | some f =>
          if f.entered then pure ()
          else do
            silent (enter name)
            jump (.body f.body { ctx with function := name })
            visitCommand jump ctx false ns
        | none => do
          visit jump ctx (Kind.command.runsChild first) n
          visitCommand jump ctx false ns
    | _ => do
      visit jump ctx (Kind.command.runsChild first) n
      visitCommand jump ctx false ns

end

/-- Goes into the bodies of functions, and stops at texts. -/
def followBodies : Nat → Jump → Trail Unit
  | _, .script .. => silent (throw .parseFailed)
  | 0, .body .. => silent (throw .exhausted)
  | budget + 1, .body parts ctx => do
    tell (.entered parts)
    visitAll (followBodies budget) ctx .functionDefinition true parts

/-! ## Nothing but the telling is different -/

theorem ext_exec {α : Type} {walk walk' : Walk α} (h : ∀ s, walk.exec s = walk'.exec s) :
    walk = walk' := funext h

@[simp] theorem walk_silent {α : Type} (step : Walk α) : (silent step).walk = step := rfl

@[simp] theorem walk_pure {α : Type} (a : α) : (pure a : Trail α).walk = pure a := rfl

@[simp] theorem walk_bind {α β : Type} (trail : Trail α) (next : α → Trail β) :
    (trail >>= next).walk = trail.walk >>= fun a => (next a).walk := by
  refine ext_exec fun s => ?_
  rw [exec_bind, exec_walk, exec_walk, bind_apply]
  rcases trail s with ⟨⟨fault | a, t⟩, events⟩ <;> rfl

@[simp] theorem walk_tell (e : Event) : (tell e).walk = pure () := rfl

@[simp] theorem walk_joinTaint (step : Trail Unit) :
    (joinTaint step).walk = Walk.joinTaint step.walk := rfl

@[simp] theorem walk_ite {α : Type} (p : Prop) [Decidable p] (trail trail' : Trail α) :
    (if p then trail else trail').walk = if p then trail.walk else trail'.walk := by
  split <;> rfl

section

variable {jump : Jump → Trail Unit} {ctx : Context}

theorem walk_visitAll_of_visit {parent : Kind} {first : Bool} {ns : List Node}
    (h : ∀ n ∈ ns, ∀ runs,
      (visit jump ctx runs n).walk = Walk.visit (fun j => (jump j).walk) ctx runs n) :
    (visitAll jump ctx parent first ns).walk =
      Walk.visitAll (fun j => (jump j).walk) ctx parent first ns := by
  induction ns generalizing first with
  | nil => rfl
  | cons n ns ih =>
    rw [visitAll, Walk.visitAll, walk_bind, h n List.mem_cons_self,
      ih fun m hm => h m (List.mem_cons_of_mem n hm)]

theorem walk_visitBranches_of_visit {parent : Kind} {first : Bool} {ns : List Node}
    (h : ∀ n ∈ ns, ∀ runs,
      (visit jump ctx runs n).walk = Walk.visit (fun j => (jump j).walk) ctx runs n) :
    (visitBranches jump ctx parent first ns).walk =
      Walk.visitBranches (fun j => (jump j).walk) ctx parent first ns := by
  induction ns generalizing first with
  | nil => rfl
  | cons n ns ih =>
    rw [visitBranches, Walk.visitBranches, walk_bind, walk_joinTaint, h n List.mem_cons_self,
      ih fun m hm => h m (List.mem_cons_of_mem n hm)]

theorem walk_visitCommand_of_visit {first : Bool} {ns : List Node}
    (h : ∀ n ∈ ns, ∀ runs,
      (visit jump ctx runs n).walk = Walk.visit (fun j => (jump j).walk) ctx runs n) :
    (visitCommand jump ctx first ns).walk =
      Walk.visitCommand (fun j => (jump j).walk) ctx first ns := by
  induction ns generalizing first with
  | nil => rfl
  | cons n ns ih =>
    have rest : (visitCommand jump ctx false ns).walk =
        Walk.visitCommand (fun j => (jump j).walk) ctx false ns :=
      ih fun m hm => h m (List.mem_cons_of_mem n hm)
    have next := h n List.mem_cons_self (Kind.command.runsChild first)
    unfold visitCommand Walk.visitCommand
    cases n.kind
    case variableAssignment => rw [walk_pure]
    case commandName =>
      simp only [walk_bind, walk_silent]
      refine congrArg _ (funext fun name => ?_)
      rw [walk_ite, walk_bind, walk_silent]
      refine congrArg (ite _ _) (congrArg _ (funext fun f => ?_))
      cases f with
      | none => rw [walk_bind, next, rest]
      | some f => simp only [walk_ite, walk_bind, walk_silent, walk_pure, rest]
    all_goals simp only [walk_bind, next, rest]

theorem walk_visit (jump : Jump → Trail Unit) (ctx : Context) (runs : Bool) (n : Node) :
    (visit jump ctx runs n).walk = Walk.visit (fun j => (jump j).walk) ctx runs n := by
  induction n using Node.induction generalizing runs with
  | step n ih =>
    obtain ⟨kind, written, row, column, endColumn, children⟩ := n
    have all : (visitAll jump ctx kind true children).walk =
        Walk.visitAll (fun j => (jump j).walk) ctx kind true children :=
      walk_visitAll_of_visit fun n hn runs => ih n hn runs
    have branches : (visitBranches jump ctx kind true children).walk =
        Walk.visitBranches (fun j => (jump j).walk) ctx kind true children :=
      walk_visitBranches_of_visit fun n hn runs => ih n hn runs
    have called : (visitCommand jump ctx true children).walk =
        Walk.visitCommand (fun j => (jump j).walk) ctx true children :=
      walk_visitCommand_of_visit fun n hn runs => ih n hn runs
    unfold visit Walk.visit
    simp only [walk_bind, walk_tell, walk_silent, pure_bind]
    refine congrArg _ (funext fun _ => ?_)
    split <;> simp [all, branches, called]

theorem walk_followBodies (budget : Nat) (jump : Jump) :
    (followBodies budget jump).walk = Walk.followBodies budget jump := by
  induction budget generalizing jump with
  | zero => cases jump <;> rfl
  | succ budget ih =>
    cases jump with
    | script text ctx => rfl
    | body parts ctx =>
      have jumps : (fun j => (followBodies budget j).walk) = Walk.followBodies budget := funext ih
      rw [followBodies, Walk.followBodies, walk_bind, walk_tell, pure_bind, ← jumps]
      exact walk_visitAll_of_visit fun n _ runs => walk_visit _ _ runs n

end

end Trail

end ShellAudit.Walk
