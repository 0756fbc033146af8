-- SUMMARY: Records are only ever added to, and functions keep their places, however a walk ends.
import ShellAudit.Proofs.Composed

/-!
# Records only grow

A walk adds to its records at the end and leaves what is there alone. There is one
exception: an assignment that is marked as being for one command may lose the mark.
A function that is defined keeps its place in the table, whatever becomes of its
body. All this holds whether a walk returns or stops with a fault, so it also holds
of what a walk leaves behind that another one recovers from.
-/

namespace ShellAudit

/-- The second assignment is the first, except that its mark may have come off. -/
structure Assignment.Kept (a b : Assignment) : Prop where
  same : { b with forCommand := a.forCommand } = a
  mark : b.forCommand = true → a.forCommand = true

/-- The second list starts with the assignments of the first; only marks may have
come off. -/
inductive AssignmentsKept : List Assignment → List Assignment → Prop
  | nil (added : List Assignment) : AssignmentsKept [] added
  | cons {a b : Assignment} {as bs : List Assignment} :
      a.Kept b → AssignmentsKept as bs → AssignmentsKept (a :: as) (b :: bs)

theorem Assignment.Kept.refl (a : Assignment) : a.Kept a := ⟨rfl, id⟩

theorem Assignment.Kept.trans {a b c : Assignment} (hab : a.Kept b) (hbc : b.Kept c) :
    a.Kept c := by
  refine ⟨?_, hab.mark ∘ hbc.mark⟩
  calc { c with forCommand := a.forCommand }
      = { ({ c with forCommand := b.forCommand } : Assignment) with
          forCommand := a.forCommand } := rfl
    _ = { b with forCommand := a.forCommand } := by rw [hbc.same]
    _ = a := hab.same

namespace AssignmentsKept

theorem append (as added : List Assignment) : AssignmentsKept as (as ++ added) := by
  induction as with
  | nil => exact .nil added
  | cons a as ih => exact .cons (.refl a) ih

theorem refl (as : List Assignment) : AssignmentsKept as as := by
  simpa using append as []

theorem trans {as bs cs : List Assignment} (hab : AssignmentsKept as bs)
    (hbc : AssignmentsKept bs cs) : AssignmentsKept as cs := by
  induction hab generalizing cs with
  | nil bs => exact .nil cs
  | cons hhead _ ih =>
    cases hbc with
    | cons hhead' htail' => exact .cons (hhead.trans hhead') (ih htail')

theorem unmarkFirst (line : Int) (as : List Assignment) :
    AssignmentsKept as (Walk.unmarkFirst line as) := by
  induction as with
  | nil => exact .nil []
  | cons a as ih =>
    unfold Walk.unmarkFirst
    split
    · exact .cons ⟨rfl, fun h => absurd h Bool.false_ne_true⟩ (.refl as)
    · exact .cons (.refl a) ih

end AssignmentsKept

namespace Walk

theorem mem_unmarkFirst {line : Int} {as : List Assignment} {a : Assignment}
    (h : a ∈ unmarkFirst line as) : ∃ b ∈ as, b.Kept a := by
  induction as with
  | nil => cases h
  | cons b bs ih =>
    unfold unmarkFirst at h
    split at h <;> rcases List.mem_cons.1 h with rfl | h
    · exact ⟨b, List.mem_cons_self, rfl, fun h => absurd h Bool.false_ne_true⟩
    · exact ⟨a, List.mem_cons_of_mem b h, .refl a⟩
    · exact ⟨a, List.mem_cons_self, .refl a⟩
    · obtain ⟨c, hc, hkept⟩ := ih h
      exact ⟨c, List.mem_cons_of_mem b hc, hkept⟩

/-- What a walk has recorded and which functions it has seen, taint aside. -/
def State.records (s : State) : Survey := { s.toSurvey with tainted := ∅ }

/-- The records of the first state are still there in the second, which may have
more of them. -/
structure Extends (s t : State) : Prop where
  assigned : AssignmentsKept s.assigned t.assigned
  used : s.used <+: t.used
  commands : s.commands <+: t.commands
  subscripts : s.subscripts <+: t.subscripts
  injectable : s.injectable <+: t.injectable
  pairs : s.pairs <+: t.pairs
  functions : s.functions.names <+: t.functions.names

namespace Extends

theorem refl (s : State) : Extends s s where
  assigned := .refl _
  used := List.prefix_refl _
  commands := List.prefix_refl _
  subscripts := List.prefix_refl _
  injectable := List.prefix_refl _
  pairs := List.prefix_refl _
  functions := List.prefix_refl _

theorem trans {s t u : State} (hst : Extends s t) (htu : Extends t u) : Extends s u where
  assigned := hst.assigned.trans htu.assigned
  used := hst.used.trans htu.used
  commands := hst.commands.trans htu.commands
  subscripts := hst.subscripts.trans htu.subscripts
  injectable := hst.injectable.trans htu.injectable
  pairs := hst.pairs.trans htu.pairs
  functions := hst.functions.trans htu.functions

/-- What a state extends depends on its records only. -/
theorem of_records {s t u : State} (h : Extends s t) (hu : u.records = t.records) :
    Extends s u where
  assigned := congrArg Survey.assigned hu ▸ h.assigned
  used := congrArg Survey.used hu ▸ h.used
  commands := congrArg Survey.commands hu ▸ h.commands
  subscripts := congrArg Survey.subscripts hu ▸ h.subscripts
  injectable := congrArg Survey.injectable hu ▸ h.injectable
  pairs := congrArg Survey.pairs hu ▸ h.pairs
  functions := congrArg Survey.functions hu ▸ h.functions

end Extends

/-- A walk that only adds to the records, however it ends. -/
def Extending {α : Type} (walk : Walk α) : Prop := ∀ s, Extends s (walk.exec s).2

namespace Extending

theorem pure {α : Type} (a : α) : Extending (pure a) := fun s => .refl s

theorem throw {α : Type} (fault : Fault) : Extending (throw fault : Walk α) := fun s => .refl s

theorem bind {α β : Type} {walk : Walk α} {next : α → Walk β} (h : Extending walk)
    (hnext : ∀ a, Extending (next a)) : Extending (walk >>= next) := by
  intro s
  have first := h s
  rw [exec_bind]
  rcases hexec : walk.exec s with ⟨fault | a, t⟩ <;> rw [hexec] at first
  · exact first
  · exact first.trans (hnext a t)

/-- A step that touches no record. -/
theorem quiet {f : State → State} (h : ∀ s, (f s).records = s.records) : Extending (modify f) :=
  fun s => (Extends.refl s).of_records (h s)

/-- A joined step changes nothing but taint in what the step leaves behind. -/
theorem joinTaint {step : Walk Unit} (h : Extending step) : Extending (joinTaint step) := by
  intro s
  have step := h s
  rw [exec_joinTaint]
  rcases hexec : Walk.exec _ s with ⟨fault | _, t⟩ <;> rw [hexec] at step
  · exact step.of_records rfl
  · exact step.of_records rfl

theorem recovering {step recover : Walk Unit} (h : Extending step) (hrecover : Extending recover) :
    Extending (recovering step recover) := by
  intro s
  have first := h s
  unfold Walk.recovering
  rw [exec_tryCatch]
  rcases hexec : step.exec s with ⟨fault | _, t⟩ <;> rw [hexec] at first
  · simp only
    split
    · exact first
    · exact first.trans (hrecover t)
  · exact first

theorem resolve (name : String) : Extending (resolve name) := by
  intro s
  unfold Walk.resolve
  simp only [exec_bind, exec_get]
  split
  · exact .refl s
  · exact (Extends.refl s).of_records rfl

theorem retract (name : String) : Extending (retract name) := by
  intro s
  unfold Walk.retract
  simp only [exec_bind, exec_get]
  split
  · exact (Extends.refl s).of_records rfl
  · exact .refl s

theorem define (name : String) (body : List Node) : Extending (define name body) := by
  intro s
  refine { Extends.refl s with functions := ?_ }
  simp only [Walk.define, exec_modify, FunctionTable.names_define]
  split
  · exact List.prefix_refl _
  · exact List.prefix_append _ _

theorem enter (name : String) : Extending (enter name) := by
  intro s
  refine { Extends.refl s with functions := ?_ }
  simp only [Walk.enter, exec_modify, FunctionTable.names_enter]
  exact List.prefix_refl _

end Extending

theorem Plain.extending {α : Type} {walk : Walk α} (h : Plain walk) : Extending walk := by
  induction h with
  | pure a => exact .pure a
  | throw fault _ => exact .throw fault
  | bind _ _ ih ihnext => exact .bind ih ihnext
  | resolve name => exact .resolve name
  | retract name => exact .retract name
  | declare name => exact .quiet fun _ => rfl
  | assignTaint name value => exact .quiet fun _ => rfl
  | taint name => exact .quiet fun _ => rfl
  | recordAssignment a => exact fun s => { Extends.refl s with assigned := .append _ _ }
  | unmark line => exact fun s => { Extends.refl s with assigned := .unmarkFirst line _ }
  | recordUse u => exact fun s => { Extends.refl s with used := List.prefix_append _ _ }
  | recordSimple line text =>
    exact fun s => { Extends.refl s with used := List.prefix_append _ _ }
  | recordCommand c => exact fun s => { Extends.refl s with commands := List.prefix_append _ _ }
  | recordSubscript x =>
    exact fun s => { Extends.refl s with subscripts := List.prefix_append _ _ }
  | recordInjectable i =>
    exact fun s => { Extends.refl s with injectable := List.prefix_append _ _ }
  | recordPair p => exact fun s => { Extends.refl s with pairs := List.prefix_append _ _ }

/-- What is composed of single steps, and of walks that only add to the records,
only adds to the records. -/
theorem Composed.extending {α : Type} {walk walk' : Walk α}
    (h : Composed (fun step _ => Extending step) walk walk') : Extending walk := by
  induction h with
  | plain h => exact h.extending
  | related h => exact h
  | bind _ _ ih ihnext => exact .bind ih ihnext
  | joinTaint _ ih => exact .joinTaint ih
  | countVisit => exact .quiet fun _ => rfl
  | define name body => exact .define name body
  | enter name => exact .enter name
  | lookup name => exact fun s => .refl s
  | recovering _ _ ih ihrecover => exact .recovering ih ihrecover

theorem follow_extending (parse? : String → Option Node) (budget : Nat) (jump : Jump) :
    Composed (fun step _ => Extending step) (follow parse? budget jump)
      (follow parse? budget jump) := by
  have := Composed.follow (R := fun step _ => Extending step) (d := 0) parse?
    (fun _ => .throw .exhausted) budget jump
  rwa [Nat.zero_add] at this

/-- Visiting a node, reading a value, recording a command, and running what a command
tells a shell to run: each of them only adds to the records, whether it returns or
stops with a fault. -/
theorem walk_append_only (parse? : String → Option Node) (budget : Nat) (ctx : Context)
    (s : State) :
    let jump := follow parse? budget
    (∀ runs node, Extends s ((visit jump ctx runs node).exec s).2) ∧
      (∀ node, Extends s ((value jump ctx node).exec s).2) ∧
      (∀ node, Extends s ((command jump ctx node).exec s).2) ∧
      (∀ c, Extends s ((runNested jump ctx c).exec s).2) ∧
      ∀ line script,
        Extends s ((commandString parse? (visit jump ctx false) line script).exec s).2 := by
  intro jump
  have jumps := follow_extending parse? budget
  refine ⟨fun runs node => ?_, fun node => ?_, fun node => ?_, fun c => ?_, fun line script => ?_⟩
  · exact (Composed.visit jumps ctx runs node).extending s
  · exact (Composed.lastValue jumps ctx [node]).extending s
  · exact (Composed.command jumps ctx node).extending s
  · exact (Composed.runNested jumps ctx c).extending s
  · exact (Composed.commandString (fun root => .visit jumps ctx false root) script).extending s

end Walk

end ShellAudit
