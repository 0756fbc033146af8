-- SUMMARY: Two walks of one tree side by side, the second with its records moved by an offset.
import ShellAudit.Proofs.Entries
import ShellAudit.Proofs.Locals

/-!
# Walks in step

`InStep gave R walk walk' Q` says of two walks that start from states related by `R`
that they end alike, with results related by `Q` and states related by `R` again. From
faults in `gave` on, nothing is said about the second walk.

`Parallel δ N S R` says of a relation of states that the single steps of a walk keep it,
when the second walk stands elsewhere by the offset `δ`. Then every walk of nodes with
`N` keeps it if jumps do, and the results differ by the offset at most. `S` tells which
texts are run.
-/

namespace ShellAudit.Walk

/-- Two outcomes that are alike, if the first is none of those that are given up on. -/
inductive Alike (gave : Fault → Prop) (R : State → State → Prop) {α : Type} (Q : α → α → Prop) :
    Except Fault α × State → Except Fault α × State → Prop
  | ok {a b : α} {s t : State} : Q a b → R s t → Alike gave R Q (.ok a, s) (.ok b, t)
  | fault {fault : Fault} {s t : State} : R s t → Alike gave R Q (.error fault, s) (.error fault, t)
  | given {fault : Fault} {s : State} {x : Except Fault α × State} :
      gave fault → Alike gave R Q (.error fault, s) x

/-- Walks that give up on nothing end in the same way. -/
theorem Alike.same {gave : Fault → Prop} {R : State → State → Prop} {Q : Unit → Unit → Prop}
    {x y : Except Fault Unit × State} (h : Alike gave R Q x y)
    (hx : ∀ fault, gave fault → x.1 ≠ .error fault) : y.1 = x.1 ∧ R x.2 y.2 := by
  cases h with
  | ok _ hs => exact ⟨rfl, hs⟩
  | fault hs => exact ⟨rfl, hs⟩
  | given hgave => exact absurd rfl (hx _ hgave)

/-- Two walks that end alike from related states. -/
def InStep (gave : Fault → Prop) (R : State → State → Prop) {α : Type} (walk walk' : Walk α)
    (Q : α → α → Prop) : Prop :=
  ∀ s t, R s t → Alike gave R Q (walk.exec s) (walk'.exec t)

/-- Asks nothing of two results. -/
def unrelated {α : Type} (_ _ : α) : Prop := True

/-- A step that gives the same in every state and changes none. -/
def Asks {α : Type} (walk : Walk α) : Prop := ∃ result, ∀ s, walk.exec s = (result, s)

/-! ## Steps that only ask -/

namespace Asks

theorem pure {α : Type} (a : α) : Asks (pure a : Walk α) := ⟨.ok a, fun _ => rfl⟩

theorem throw {α : Type} (fault : Fault) : Asks (throw fault : Walk α) :=
  ⟨.error fault, fun _ => rfl⟩

theorem liftExcept {α : Type} (x : Except Fault α) : Asks (liftExcept x) := ⟨x, fun _ => rfl⟩

theorem bind {α β : Type} {walk : Walk α} {next : α → Walk β} (h : Asks walk)
    (hnext : ∀ a, Asks (next a)) : Asks (walk >>= next) := by
  obtain ⟨result, hresult⟩ := h
  cases result with
  | error fault => exact ⟨.error fault, fun s => by rw [exec_bind, hresult]⟩
  | ok a =>
    obtain ⟨result, hnext⟩ := hnext a
    exact ⟨result, fun s => by simp only [exec_bind, hresult, hnext]⟩

theorem text (n : Node) : Asks (text n) := by
  unfold Walk.text
  split
  · exact .pure _
  · exact .throw _

theorem armsTest (ns : List Node) : Asks (armsTest ns) := by
  induction ns with
  | nil => exact .pure false
  | cons n ns ih =>
    unfold Walk.armsTest
    split
    · exact .bind (.text n) fun _ => .bind ih fun _ => .pure _
    · exact ih

theorem variableNamesAll {ns : List Node} (h : ∀ n ∈ ns, Asks (variableNames n)) :
    Asks (variableNamesAll ns) := by
  induction ns with
  | nil => exact .pure []
  | cons n ns ih =>
    unfold Walk.variableNamesAll
    exact .bind (h n List.mem_cons_self) fun _ =>
      .bind (ih fun m hm => h m (List.mem_cons_of_mem n hm)) fun _ => .pure _

theorem variableNames (n : Node) : Asks (variableNames n) := by
  induction n using Node.induction with
  | step n ih =>
    have own : Asks (ownName n) := by
      unfold Walk.ownName
      split
      · exact .bind (.text n) fun _ => .pure _
      · exact .pure []
    obtain ⟨kind, written, row, column, endColumn, children⟩ := n
    unfold Walk.variableNames
    exact .bind own fun _ => .bind (.variableNamesAll ih) fun _ => .pure _

theorem draftName (draft : Draft) (n : Node) : Asks (draftName draft n) :=
  .bind (.text _) fun _ => .pure _

theorem draftArgument (draft : Draft) (n : Node) : Asks (draftArgument draft n) := by
  refine .bind (.text n) fun written => ?_
  split
  · exact .pure draft
  · exact .pure _

theorem firstCharacter (n : Node) : Asks (firstCharacter n) := by
  refine .bind (.text n) fun written => ?_
  split
  · exact .throw _
  · exact .pure _

theorem opener (ns : List Node) : Asks (opener ns) := by
  cases ns with
  | nil => exact .throw _
  | cons n ns => exact .pure _

theorem isLocal (ns : List Node) : Asks (isLocal ns) := by
  cases ns with
  | nil => exact .throw _
  | cons n ns => exact .pure _

theorem callee (n : Node) : Asks (callee n) := by
  unfold Walk.callee
  split
  · exact .throw _
  · exact .text _

end Asks

theorem callee_returns {n : Node} (hkind : n.kind = .commandName) :
    Returns (callee n) fun name => n.calls? = some name := by
  unfold Walk.callee
  split
  · exact fun _ _ _ h => by cases h
  · rename_i word words hchildren
    intro s name t h
    rw [Node.calls?, if_pos hkind, hchildren]
    exact Returns.text word s name t h

/-! ## Rules -/

namespace InStep

variable {gave : Fault → Prop} {R : State → State → Prop} {α β : Type} {walk walk' : Walk α}
  {P Q : α → α → Prop}

theorem pure {a b : α} (h : Q a b) : InStep gave R (pure a) (pure b) Q := fun _ _ hs => .ok h hs

theorem throw (fault : Fault) : InStep gave R (throw fault : Walk α) (throw fault) Q :=
  fun _ _ hs => .fault hs

theorem modify {f g : State → State} (h : ∀ s t, R s t → R (f s) (g t)) :
    InStep gave R (modify f) (modify g) unrelated :=
  fun s t hs => .ok trivial (h s t hs)

theorem bind {next next' : α → Walk β} {Q : β → β → Prop} (h : InStep gave R walk walk' P)
    (hnext : ∀ a b, P a b → InStep gave R (next a) (next' b) Q) :
    InStep gave R (walk >>= next) (walk' >>= next') Q := by
  intro s t hs
  have first := h s t hs
  simp only [exec_bind]
  revert first
  generalize walk.exec s = x
  generalize walk'.exec t = y
  intro first
  cases first with
  | ok hP ht => exact hnext _ _ hP _ _ ht
  | fault ht => exact .fault ht
  | given hgave => exact .given hgave

/-- A step that only asks gives both walks the same, and what it returns is known. -/
theorem asks {Q : α → Prop} (h : Asks walk) (hQ : Returns walk Q) :
    InStep gave R walk walk fun a b => a = b ∧ Q a := by
  intro s t hs
  obtain ⟨result, hresult⟩ := h
  have returned := hQ s
  simp only [hresult] at returned ⊢
  cases result with
  | error fault => exact .fault hs
  | ok a => exact .ok ⟨rfl, returned a s rfl⟩ hs

/-- What every result of the first walk satisfies may be asked for. -/
theorem returning {Q : α → Prop} (h : InStep gave R walk walk' P) (hQ : Returns walk Q) :
    InStep gave R walk walk' fun a b => P a b ∧ Q a := by
  intro s t hs
  have first := h s t hs
  have returned := hQ s
  revert first returned
  generalize walk.exec s = x
  generalize walk'.exec t = y
  intro first returned
  cases first with
  | ok hP ht => exact .ok ⟨hP, returned _ _ rfl⟩ ht
  | fault ht => exact .fault ht
  | given hgave => exact .given hgave

theorem when {p : Prop} [Decidable p] {step step' : Walk Unit}
    (h : p → InStep gave R step step' unrelated) :
    InStep gave R (when p step) (when p step') unrelated := by
  unfold Walk.when
  split
  · exact h ‹p›
  · exact .pure trivial

theorem recovering {step step' recover recover' : Walk Unit}
    (h : InStep (fun _ => False) R step step' unrelated)
    (hrecover : InStep (fun _ => False) R recover recover' unrelated) :
    InStep (fun _ => False) R (recovering step recover) (recovering step' recover')
      unrelated := by
  intro s t hs
  have first := h s t hs
  simp only [Walk.recovering, exec_tryCatch]
  revert first
  generalize step.exec s = x
  generalize step'.exec t = y
  intro first
  cases first with
  | ok _ hu => exact .ok trivial hu
  | fault hu =>
    simp only
    split
    · exact .fault hu
    · exact hrecover _ _ hu
  | given hgave => exact hgave.elim

end InStep

/-! ## Relations that single steps keep -/

/-- How far a command string is moved by the offset of the command that runs it. Its
column is counted from the column of the command and from that of the context. -/
def nestedOffset (δ : Offset) : Offset := ⟨δ.line, δ.column + δ.column⟩

/-- The jump to the same place by a walk that stands elsewhere. -/
def Jump.shift (δ : Offset) : Jump → Jump
  | .body parts ctx => .body parts (ctx.shift δ)
  | .script text ctx => .script text (ctx.shift (nestedOffset δ))

@[simp] theorem Jump.shift_zero (jump : Jump) : jump.shift ⟨0, 0⟩ = jump := by
  cases jump <;> simp [Jump.shift, nestedOffset]

/-- A relation of states that is kept by two walks of nodes with `N` that run texts with `S`,
when the second stands elsewhere. -/
structure Parallel (δ : Offset) (N : Node → Prop) (S : String → Prop)
    (R : State → State → Prop) : Prop where
  child {n c : Node} : N n → c ∈ n.children → N c
  script {n : Node} {script : String} : N n → n.Runs script → S script
  tainted {s t : State} : R s t → t.tainted = s.tainted
  functions {s t : State} : R s t → t.functions = s.functions
  body {n : Node} {s t : State} {name : String} {f : Function} :
    N n → n.calls? = some name → R s t → s.functions.get? name = some f → ∀ m ∈ f.body, N m
  /-- The relation is about records, functions, scope and taint. -/
  quiet {s t s' t' : State} : R s t → s'.records = s.records → s'.scope = s.scope →
    t'.records = t.records → t'.scope = t.scope → t'.tainted = s'.tainted → R s' t'
  add {s t : State} (e : Entry) : R s t → R (s.add e) (t.add (e.shift δ))
  lookup {n : Node} {s t : State} {name : String} : N n → name ∈ n.lookups → R s t →
    Scope.qualified? t.scope name = Scope.qualified? s.scope name ∧
      R { s with scope := s.scope.insert name } { t with scope := t.scope.insert name }
  declare {n : Node} {s t : State} (name : String) : N n → n.IsLocal → R s t →
    R { s with scope := s.scope.insert name } { t with scope := t.scope.insert name }
  retract {n : Node} {s t : State} (name : String) : N n → n.IsLocal → R s t →
    (name ∈ t.scope ↔ name ∈ s.scope) ∧
      R { s with scope := s.scope.erase name } { t with scope := t.scope.erase name }
  define {n : Node} {s t : State} {name : String} : N n → n.defines? = some name → R s t →
    R { s with functions := s.functions.define name n.children }
      { t with functions := t.functions.define name n.children }
  enter {s t : State} (name : String) : R s t →
    R { s with functions := s.functions.enter name } { t with functions := t.functions.enter name }

namespace Parallel

variable {δ : Offset} {N : Node → Prop} {S : String → Prop} {R : State → State → Prop}
  (parallel : Parallel δ N S R) {gave : Fault → Prop} {ctx : Context} {n : Node}

include parallel

/-! ### Single steps -/

theorem inStep_quiet {f g : State → State} (hf : ∀ s, (f s).records = s.records)
    (hf' : ∀ s, (f s).scope = s.scope) (hg : ∀ t, (g t).records = t.records)
    (hg' : ∀ t, (g t).scope = t.scope)
    (h : ∀ s t, t.tainted = s.tainted → (g t).tainted = (f s).tainted) :
    InStep gave R (modify f) (modify g) unrelated :=
  .modify fun s t hs =>
    parallel.quiet hs (hf s) (hf' s) (hg t) (hg' t) (h s t (parallel.tainted hs))

theorem inStep_countVisit : InStep gave R countVisit countVisit unrelated :=
  parallel.inStep_quiet (fun _ => rfl) (fun _ => rfl) (fun _ => rfl) (fun _ => rfl) fun _ _ h => h

theorem inStep_taint (name : String) : InStep gave R (taint name) (taint name) unrelated :=
  parallel.inStep_quiet (fun _ => rfl) (fun _ => rfl) (fun _ => rfl) (fun _ => rfl)
    fun _ _ h => by simp only [h]

theorem inStep_assignTaint (name : String) (value : Value) :
    InStep gave R (assignTaint name value) (assignTaint name (value.shift δ)) unrelated :=
  parallel.inStep_quiet (fun _ => rfl) (fun _ => rfl) (fun _ => rfl) (fun _ => rfl)
    fun _ _ h => by simp only [h, NameSet.assign_shift]

theorem inStep_joinTaint {step step' : Walk Unit} (h : InStep gave R step step' unrelated) :
    InStep gave R (joinTaint step) (joinTaint step') unrelated := by
  intro s t hs
  have joined := h s t hs
  have htainted := parallel.tainted hs
  simp only [exec_joinTaint]
  revert joined
  generalize step.exec s = x
  generalize step'.exec t = y
  intro joined
  cases joined with
  | ok _ hu =>
    refine .ok trivial (parallel.quiet hu rfl rfl rfl rfl ?_)
    simp only [htainted, parallel.tainted hu]
  | fault hu => exact .fault (parallel.quiet hu rfl rfl rfl rfl htainted)
  | given hgave => exact .given hgave

omit parallel in
theorem inStep_text (n : Node) :
    InStep gave R (text n) (text n) fun a b => a = b ∧ n.text = some a :=
  .asks (.text n) (.text n)

/-- A name means the same to both walks. -/
theorem inStep_resolve (hn : N n) {name : String} (hname : name ∈ n.lookups) :
    InStep gave R (resolve name) (resolve name) fun a b =>
      a = b ∧ Scope.Means name a := by
  intro s t hs
  obtain ⟨hqualified, hinsert⟩ := parallel.lookup hn hname hs
  simp only [Walk.resolve, exec_bind, exec_get, hqualified]
  split
  · rename_i qualified h
    exact .ok ⟨rfl, Scope.means_of_qualified? h⟩ hs
  · exact .ok ⟨rfl, .inl rfl⟩ hinsert

theorem inStep_recordAssignment {a b : Assignment} (h : b = a.shift δ) :
    InStep gave R (recordAssignment a) (recordAssignment b) unrelated :=
  .modify fun _ _ hs => h ▸ parallel.add (.assignment a) hs

theorem inStep_recordCommand {c d : Command} (h : d = c.shift δ) :
    InStep gave R (recordCommand c) (recordCommand d) unrelated :=
  .modify fun _ _ hs => h ▸ parallel.add (.command c) hs

/-! ### Expansions, tests and pairs -/

theorem inStep_subscript (n : Node) :
    InStep gave R (subscript ctx n) (subscript (ctx.shift δ) n) unrelated := by
  refine .bind (inStep_text n) ?_
  rintro written _ ⟨rfl, -⟩
  refine .modify fun s t hs => ?_
  simpa only [State.add, Survey.add, Entry.shift, Subscript.shift, Node.lineIn_shift,
    Node.columnIn_shift, Int.add_right_comm _ δ.line 1] using parallel.add (.subscript _) hs

theorem inStep_expansion (n : Node) :
    InStep gave R (expansion ctx n) (expansion (ctx.shift δ) n) unrelated := by
  refine .bind (inStep_text n) ?_
  rintro written _ ⟨rfl, -⟩
  refine .bind (.when fun _ => parallel.inStep_subscript n) fun _ _ _ => .modify fun s t hs => ?_
  simpa only [State.add, Survey.add, Entry.shift, Use.shift, Node.lineIn_shift,
    Node.columnIn_shift] using parallel.add (.use _) hs

theorem inStep_expansionStatement (n : Node) (runs : Bool) :
    InStep gave R (expansionStatement ctx runs n) (expansionStatement (ctx.shift δ) runs n)
      unrelated := by
  refine .bind (parallel.inStep_expansion n) fun _ _ _ => .when fun _ => .bind (inStep_text n) ?_
  rintro written _ ⟨rfl, -⟩
  apply parallel.inStep_recordCommand
  simp [Command.shift]

theorem inStep_injectable (hn : N n) (hkind : n.kind = .variableName) (opener : String) :
    InStep gave R (injectable ctx opener n) (injectable (ctx.shift δ) opener n) unrelated := by
  refine .bind (inStep_text n) ?_
  rintro written _ ⟨rfl, hwritten⟩
  have hname : written ∈ n.lookups := by simp [Node.lookups, hkind, hwritten]
  refine .bind (parallel.inStep_resolve hn hname) ?_
  rintro name _ ⟨rfl, -⟩
  refine .modify fun s t hs => ?_
  simpa only [State.add, Survey.add, Entry.shift, Injectable.shift, Node.lineIn_shift,
    Node.columnIn_shift] using parallel.add (.injectable _) hs

theorem inStep_testOwn (hn : N n) (opener : String) (armed : Bool) :
    InStep gave R (testOwn ctx opener armed n) (testOwn (ctx.shift δ) opener armed n)
      unrelated := by
  unfold Walk.testOwn
  split
  · rename_i h
    rw [Bool.and_eq_true, decide_eq_true_eq] at h
    exact parallel.inStep_injectable hn h.2 opener
  · split
    · exact parallel.inStep_expansion n
    · exact .pure trivial

omit parallel in
theorem inStep_testAll {ns : List Node} {opener : String} {armed : Bool}
    (h : ∀ n ∈ ns, ∀ armed, InStep gave R (test ctx opener armed n)
      (test (ctx.shift δ) opener armed n) unrelated) :
    InStep gave R (testAll ctx opener armed ns) (testAll (ctx.shift δ) opener armed ns)
      unrelated := by
  induction ns with
  | nil => exact .pure trivial
  | cons n ns ih =>
    unfold Walk.testAll
    exact .bind (h n List.mem_cons_self armed) fun _ _ _ =>
      ih fun m hm => h m (List.mem_cons_of_mem n hm)

theorem inStep_test (hn : N n) (opener : String) (armed : Bool) :
    InStep gave R (test ctx opener armed n) (test (ctx.shift δ) opener armed n) unrelated := by
  induction n using Node.induction generalizing armed with
  | step n ih =>
    obtain ⟨kind, written, row, column, endColumn, children⟩ := n
    unfold Walk.test
    refine .bind (parallel.inStep_testOwn hn opener armed) fun _ _ _ =>
      .bind (.asks (.armsTest children) (.any _)) ?_
    rintro arms _ ⟨rfl, -⟩
    exact inStep_testAll fun c hc armed => ih c hc (parallel.child hn hc) armed

omit parallel in
theorem inStep_arithmeticAll {ns : List Node} {opener : String} {armed : Bool}
    (h : ∀ n ∈ ns, ∀ armed, InStep gave R (arithmetic ctx opener armed n)
      (arithmetic (ctx.shift δ) opener armed n) unrelated) :
    InStep gave R (arithmeticAll ctx opener armed ns) (arithmeticAll (ctx.shift δ) opener armed ns)
      unrelated := by
  induction ns with
  | nil => exact .pure trivial
  | cons n ns ih =>
    unfold Walk.arithmeticAll
    exact .bind (h n List.mem_cons_self armed) fun _ _ _ =>
      ih fun m hm => h m (List.mem_cons_of_mem n hm)

theorem inStep_arithmetic (hn : N n) (opener : String) (armed : Bool) :
    InStep gave R (arithmetic ctx opener armed n) (arithmetic (ctx.shift δ) opener armed n)
      unrelated := by
  induction n using Node.induction generalizing armed with
  | step n ih =>
    obtain ⟨kind, written, row, column, endColumn, children⟩ := n
    unfold Walk.arithmetic
    exact .bind (.when fun h => parallel.inStep_injectable hn h.2 opener) fun _ _ _ =>
      inStep_arithmeticAll fun c hc armed => ih c hc (parallel.child hn hc) armed

theorem inStep_declarePairs (ns : List Node) :
    InStep gave R (declarePairs ctx ns) (declarePairs (ctx.shift δ) ns) unrelated := by
  induction ns with
  | nil => exact .pure trivial
  | cons n ns ih =>
    have declarePair :
        InStep gave R (declarePair ctx n) (declarePair (ctx.shift δ) n) unrelated := by
      refine .bind (.asks (.variableNames n) (.any _)) ?_
      rintro names _ ⟨rfl, -⟩
      split
      · refine .modify fun s t hs => ?_
        simpa only [State.add, Survey.add, Entry.shift, Pair.shift, Node.lineIn_shift,
          Node.columnIn_shift] using parallel.add (.pair _) hs
      · exact .pure trivial
    unfold Walk.declarePairs
    exact .bind (.when fun _ => declarePair) fun _ _ _ => ih

/-! ### Values and commands -/

section Values

variable {jump jump' : Jump → Walk Unit}
  (hrun : ∀ ctx script, S script → InStep gave R (jump (.script script ctx))
    (jump' (.script script (ctx.shift (nestedOffset δ)))) unrelated)

theorem inStep_readInto (hn : N n) {arguments : List String}
    (harguments : ∀ a ∈ arguments, a ∈ n.lookups) :
    InStep gave R (readInto ctx n arguments) (readInto (ctx.shift δ) n arguments) unrelated := by
  induction arguments with
  | nil => exact .pure trivial
  | cons argument rest ih =>
    have readVariable : InStep gave R (readVariable ctx n argument)
        (readVariable (ctx.shift δ) n argument) unrelated := by
      refine .bind (parallel.inStep_resolve hn (harguments argument List.mem_cons_self)) ?_
      rintro name _ ⟨rfl, -⟩
      refine .bind (parallel.inStep_recordAssignment ?_) fun _ _ _ => parallel.inStep_taint name
      simp [Assignment.shift, Value.shift, Part.shift]
    unfold Walk.readInto
    exact .bind (.when fun _ => readVariable) fun _ _ _ =>
      ih fun a ha => harguments a (List.mem_cons_of_mem argument ha)

omit parallel in
include hrun in
/-- The column of a command contains that of its context, so a text that it runs is
moved twice. -/
theorem inStep_runNested (c : Command)
    (hscript : ∀ script, c.name ∈ shells → scriptArgument? c.arguments = some script → S script) :
    InStep gave R (runNested jump ctx c) (runNested jump' (ctx.shift δ) (c.shift δ))
      unrelated := by
  unfold Walk.runNested
  simp only [Command.shift]
  cases hargument : scriptArgument? c.arguments with
  | none => exact .pure trivial
  | some script =>
    by_cases hshell : shells.contains c.name = true
    · have column : ctx.column + δ.column + (c.column + δ.column) + c.name.length + 1 + 4 =
          ctx.column + c.column + c.name.length + 1 + 4 + (δ.column + δ.column) := by omega
      simpa only [hshell, if_true, Context.shift, nestedOffset, column] using
        hrun ⟨ctx.function, c.line, ctx.column + c.column + c.name.length + 1 + 4⟩ script
          (hscript script (List.contains_iff_mem.1 hshell) hargument)
    · simp only [hshell]
      exact .pure trivial

include hrun in
theorem inStep_finish (hn : N n) (hkind : n.kind = .command) :
    InStep gave R (finish jump ctx n n.draft) (finish jump' (ctx.shift δ) n n.draft)
      fun a b => b = a.map (·.shift δ) := by
  have hlookup : n.draft.name ∈ n.lookups := by simp [Node.lookups, hkind]
  have record : InStep gave R (Walk.record jump ctx n n.draft)
      (Walk.record jump' (ctx.shift δ) n n.draft) fun a b => b = a.shift δ := by
    unfold Walk.record
    refine .bind (parallel.inStep_resolve hn hlookup) ?_
    rintro name _ ⟨rfl, hmeans⟩
    let c : Command := ⟨name, n.draft.arguments, n.lineIn ctx, ctx.column + n.draft.column⟩
    have moved : (⟨name, n.draft.arguments, n.lineIn (ctx.shift δ),
        (ctx.shift δ).column + n.draft.column⟩ : Command) = c.shift δ := by
      simp [c, Command.shift, Int.add_right_comm]
    have runs (script : String) (hshell : name ∈ shells)
        (hscript : scriptArgument? n.draft.arguments = some script) : S script := by
      obtain rfl : n.draft.name = name :=
        hmeans.eq_of_undotted ((by decide : ∀ shell ∈ shells, Scope.depth shell = 0) name hshell)
      exact parallel.script hn ⟨hkind, hshell, hscript⟩
    simp only [moved]
    refine .bind (parallel.inStep_recordCommand rfl) fun _ _ _ =>
      .bind (.when fun hread => ?_) fun _ _ _ =>
        .bind (inStep_runNested hrun c runs) fun _ _ _ => .pure rfl
    have hread : n.draft.name = "read" := hread ▸ hmeans.eq_of_undotted (hread ▸ by decide)
    exact parallel.inStep_readInto hn fun a ha => by simp [Node.lookups, hkind, hread, ha]
  unfold Walk.finish
  split
  · exact .pure rfl
  · refine .bind record ?_
    rintro c _ rfl
    exact .pure rfl

theorem inStep_ownPart {recorded recorded' : Walk (Option Command)}
    (hrecorded : n.kind = .command → InStep gave R recorded recorded' fun a b =>
      b = a.map (·.shift δ)) :
    InStep gave R (ownPart ctx recorded n) (ownPart (ctx.shift δ) recorded' n) fun a b =>
      b = a.map (·.shift δ) := by
  have braced_shift {part : Part} (h : braced n (some (frameOf n)) = .ok part) :
      part.shift δ = part := by
    unfold braced at h
    cases hname : parameter? n with
    | error fault =>
      rw [hname] at h
      cases h
    | ok name? =>
      rw [hname] at h
      cases htext : n.text <;> cases name? <;> rw [htext] at h <;> cases h
      rfl
  unfold Walk.ownPart
  split
  · refine .bind (.asks (Q := fun part => part.shift δ = part) (.liftExcept _) ?_) ?_
    · intro s part t h
      exact braced_shift (congrArg Prod.fst h)
    · rintro part _ ⟨rfl, hpart⟩
      exact .pure (by simp [hpart])
  · refine .bind (inStep_text n) ?_
    rintro written _ ⟨rfl, -⟩
    exact .pure rfl
  · rename_i hkind
    refine .bind (hrecorded hkind) ?_
    rintro c? _ rfl
    refine .pure ?_
    cases c? <;> rfl
  · exact .bind (parallel.inStep_subscript n) fun _ _ _ => .pure rfl
  · exact .pure rfl

omit parallel in
theorem inStep_partsAll {ns : List Node}
    (h : ∀ n ∈ ns, InStep gave R (parts jump ctx n) (parts jump' (ctx.shift δ) n) fun a b =>
      b = a.map (·.shift δ)) :
    InStep gave R (partsAll jump ctx ns) (partsAll jump' (ctx.shift δ) ns) fun a b =>
      b = a.map (·.shift δ) := by
  induction ns with
  | nil => exact .pure rfl
  | cons n ns ih =>
    unfold Walk.partsAll
    refine .bind (h n List.mem_cons_self) ?_
    rintro first _ rfl
    refine .bind (ih fun m hm => h m (List.mem_cons_of_mem n hm)) ?_
    rintro rest _ rfl
    exact .pure (by simp)

omit parallel in
theorem inStep_lastValue_of_parts {ns : List Node}
    (h : ∀ n ∈ ns, InStep gave R (parts jump ctx n) (parts jump' (ctx.shift δ) n) fun a b =>
      b = a.map (·.shift δ)) :
    InStep gave R (lastValue jump ctx ns) (lastValue jump' (ctx.shift δ) ns) fun a b =>
      b = a.shift δ := by
  induction ns with
  | nil => exact .throw _
  | cons n ns ih =>
    cases ns with
    | nil =>
      unfold Walk.lastValue
      refine .bind (h n List.mem_cons_self) ?_
      rintro parts _ rfl
      refine .bind (inStep_text n) ?_
      rintro content _ ⟨rfl, -⟩
      exact .pure rfl
    | cons m ms =>
      unfold Walk.lastValue
      exact ih fun k hk => h k (List.mem_cons_of_mem n hk)

theorem inStep_draftChildren_of_parts {ns : List Node} (draft : Draft) (hns : ∀ n ∈ ns, N n)
    (h : ∀ n ∈ ns, ∀ c ∈ n.children, InStep gave R (parts jump ctx c)
      (parts jump' (ctx.shift δ) c) fun a b => b = a.map (·.shift δ)) :
    InStep gave R (draftChildren jump ctx draft ns) (draftChildren jump' (ctx.shift δ) draft ns)
      fun a b => a = b := by
  induction ns generalizing draft with
  | nil => exact .pure rfl
  | cons n ns ih =>
    have hn := hns n List.mem_cons_self
    have rest := fun draft => ih draft (fun m hm => hns m (List.mem_cons_of_mem n hm))
      fun m hm => h m (List.mem_cons_of_mem n hm)
    by_cases hassign : n.kind = .variableAssignment
    · simp only [draftChildren_cons_assignment hassign]
      refine .bind (inStep_text n) ?_
      rintro written _ ⟨rfl, hwritten⟩
      have htarget : String.ofList (Text.beforeEquals written.toList) ∈ n.lookups := by
        simp [Node.lookups, hassign, hwritten]
      refine .bind (parallel.inStep_resolve hn htarget) ?_
      rintro name _ ⟨rfl, -⟩
      refine .bind (inStep_lastValue_of_parts (h n List.mem_cons_self)) ?_
      rintro value _ rfl
      refine .bind (parallel.inStep_recordAssignment ?_) fun _ _ _ =>
        .bind (parallel.inStep_assignTaint _ value) fun _ _ _ => rest draft
      simp [Assignment.shift]
    · by_cases hname : n.kind = .commandName
      · simp only [draftChildren_cons_name hname]
        refine .bind (.asks (.draftName draft n) (.any _)) ?_
        rintro draft _ ⟨rfl, -⟩
        exact rest draft
      · simp only [draftChildren_cons_other hassign hname]
        split
        · refine .bind (.asks (.draftArgument draft n) (.any _)) ?_
          rintro draft _ ⟨rfl, -⟩
          exact rest draft
        · exact rest draft

include hrun in
theorem inStep_command_of_parts (hn : N n) (hkind : n.kind = .command)
    (h : ∀ c ∈ n.children, ∀ d ∈ c.children, InStep gave R (parts jump ctx d)
      (parts jump' (ctx.shift δ) d) fun a b => b = a.map (·.shift δ)) :
    InStep gave R (command jump ctx n) (command jump' (ctx.shift δ) n) fun a b =>
      b = a.map (·.shift δ) := by
  refine .bind ((parallel.inStep_draftChildren_of_parts {} (fun c hc => parallel.child hn hc)
    h).returning (draftChildren_returns jump ctx {} n.children)) ?_
  rintro _ _ ⟨rfl, rfl⟩
  exact parallel.inStep_finish hrun hn hkind

include hrun in
/-- As for single walks, the induction carries the parts of the children along. -/
theorem inStep_parts_and_children (hn : N n) :
    (InStep gave R (parts jump ctx n) (parts jump' (ctx.shift δ) n) fun a b =>
      b = a.map (·.shift δ)) ∧
    ∀ c ∈ n.children, InStep gave R (parts jump ctx c) (parts jump' (ctx.shift δ) c) fun a b =>
      b = a.map (·.shift δ) := by
  induction n using Node.induction with
  | step n ih =>
    have below (c : Node) (hc : c ∈ n.children) := ih c hc (parallel.child hn hc)
    refine ⟨?_, fun c hc => (below c hc).1⟩
    have command (hkind : n.kind = .command) :=
      parallel.inStep_command_of_parts hrun hn hkind fun c hc => (below c hc).2
    obtain ⟨kind, written, row, column, endColumn, children⟩ := n
    unfold Walk.parts
    refine .bind (parallel.inStep_ownPart command) ?_
    rintro own _ rfl
    refine .bind (inStep_partsAll fun c hc => (below c hc).1) ?_
    rintro rest _ rfl
    exact .pure (by simp)

include hrun in
theorem inStep_lastValue {ns : List Node} (hns : ∀ n ∈ ns, N n) :
    InStep gave R (lastValue jump ctx ns) (lastValue jump' (ctx.shift δ) ns) fun a b =>
      b = a.shift δ :=
  inStep_lastValue_of_parts fun n hn => (parallel.inStep_parts_and_children hrun (hns n hn)).1

include hrun in
theorem inStep_command (hn : N n) (hkind : n.kind = .command) :
    InStep gave R (command jump ctx n) (command jump' (ctx.shift δ) n) fun a b =>
      b = a.map (·.shift δ) :=
  parallel.inStep_command_of_parts hrun hn hkind fun _ hc =>
    (parallel.inStep_parts_and_children hrun (parallel.child hn hc)).2

end Values

/-! ### Visits -/

theorem inStep_defineFunction (hn : N n) (hkind : n.kind = .functionDefinition) :
    InStep gave R (defineFunction n.children) (defineFunction n.children) unrelated := by
  unfold Walk.defineFunction
  split
  · exact .throw _
  · rename_i word hword
    refine .bind (inStep_text word) ?_
    rintro name _ ⟨rfl, hname⟩
    have hdefines : n.defines? = some name := by
      rw [Node.defines?, if_pos hkind, hword]
      exact hname
    split
    · exact .throw _
    · exact .modify fun _ _ hs => parallel.define hn hdefines hs

theorem inStep_retractAll (hn : N n) (hlocal : n.IsLocal) (names : List String) :
    InStep gave R (retractAll names) (retractAll names) unrelated := by
  induction names with
  | nil => exact .pure trivial
  | cons name names ih =>
    refine .bind (P := unrelated) (fun s t hs => ?_) fun _ _ _ => ih
    obtain ⟨hmem, herase⟩ := parallel.retract name hn hlocal hs
    simp only [Walk.retract, exec_bind, exec_get, hmem]
    split
    · exact .ok trivial herase
    · exact .fault hs

section Visits

variable {jump jump' : Jump → Walk Unit}
  (hjump : ∀ j, Admitted (fun _ => N) (fun _ => S) j →
    InStep gave R (jump j) (jump' (j.shift δ)) unrelated)

include hjump

theorem inStep_declareLocals (hn : N n) (hlocal : n.IsLocal) (locals : NameSet) {ns : List Node}
    (hns : ∀ m ∈ ns, N m) :
    InStep gave R (declareLocals jump ctx n locals ns)
      (declareLocals jump' (ctx.shift δ) n locals ns) fun a b => a = b := by
  induction ns generalizing locals with
  | nil => exact .pure rfl
  | cons m ms ih =>
    have rest := fun locals => ih locals fun k hk => hns k (List.mem_cons_of_mem m hk)
    have declareLocal (name : String) : InStep gave R (declareLocal locals name)
        (declareLocal locals name) fun a b => a = b :=
      .bind (.modify fun _ _ hs => parallel.declare name hn hlocal hs) fun _ _ _ => .pure rfl
    unfold Walk.declareLocals
    split
    · refine .bind (inStep_text m) ?_
      rintro written _ ⟨rfl, -⟩
      refine .bind (parallel.inStep_lastValue (fun ctx script => hjump (.script script ctx))
        fun c hc => parallel.child (hns m List.mem_cons_self) hc) ?_
      rintro value _ rfl
      refine .bind (parallel.inStep_assignTaint _ value) fun _ _ _ => .bind (declareLocal _) ?_
      rintro locals _ rfl
      exact rest locals
    · refine .bind (.asks (.firstCharacter n) (.any _)) ?_
      rintro initial _ ⟨rfl, -⟩
      refine .bind (declareLocal _) ?_
      rintro locals _ rfl
      exact rest locals
    · exact rest locals

theorem inStep_localDeclaration (hn : N n) (hlocal : n.IsLocal) :
    InStep gave R (localDeclaration jump ctx n) (localDeclaration jump' (ctx.shift δ) n)
      unrelated := by
  refine .bind (parallel.inStep_declareLocals hjump hn hlocal ∅ fun c hc => parallel.child hn hc) ?_
  rintro locals _ rfl
  exact parallel.inStep_retractAll hn hlocal locals.names

theorem inStep_assignment (hn : N n) (hkind : n.kind = .variableAssignment) :
    InStep gave R (assignment jump ctx n) (assignment jump' (ctx.shift δ) n) unrelated := by
  unfold Walk.assignment
  refine .bind (inStep_text n) ?_
  rintro written _ ⟨rfl, hwritten⟩
  have htarget : String.ofList (Text.beforeEquals written.toList) ∈ n.lookups := by
    simp [Node.lookups, hkind, hwritten]
  refine .bind (parallel.inStep_resolve hn htarget) ?_
  rintro name _ ⟨rfl, -⟩
  refine .bind (.when fun _ => parallel.inStep_subscript n) fun _ _ _ =>
    .bind (parallel.inStep_lastValue (fun ctx script => hjump (.script script ctx))
      fun c hc => parallel.child hn hc) ?_
  rintro value _ rfl
  refine .bind (parallel.inStep_recordAssignment ?_) fun _ _ _ =>
    parallel.inStep_assignTaint name value
  simp [Assignment.shift]

omit parallel hjump in
theorem inStep_visitAll_of_visit {parent : Kind} {first : Bool} {ns : List Node}
    (h : ∀ n ∈ ns, ∀ runs,
      InStep gave R (visit jump ctx runs n) (visit jump' (ctx.shift δ) runs n) unrelated) :
    InStep gave R (visitAll jump ctx parent first ns) (visitAll jump' (ctx.shift δ) parent first ns)
      unrelated := by
  induction ns generalizing first with
  | nil => exact .pure trivial
  | cons n ns ih =>
    unfold Walk.visitAll
    exact .bind (h n List.mem_cons_self _) fun _ _ _ =>
      ih fun m hm => h m (List.mem_cons_of_mem n hm)

omit hjump in
theorem inStep_visitBranches_of_visit {parent : Kind} {first : Bool} {ns : List Node}
    (h : ∀ n ∈ ns, ∀ runs,
      InStep gave R (visit jump ctx runs n) (visit jump' (ctx.shift δ) runs n) unrelated) :
    InStep gave R (visitBranches jump ctx parent first ns)
      (visitBranches jump' (ctx.shift δ) parent first ns) unrelated := by
  induction ns generalizing first with
  | nil => exact .pure trivial
  | cons n ns ih =>
    unfold Walk.visitBranches
    exact .bind (parallel.inStep_joinTaint (h n List.mem_cons_self _)) fun _ _ _ =>
      ih fun m hm => h m (List.mem_cons_of_mem n hm)

theorem inStep_visitCommand_of_visit {first : Bool} {ns : List Node} (hns : ∀ n ∈ ns, N n)
    (h : ∀ n ∈ ns, ∀ runs,
      InStep gave R (visit jump ctx runs n) (visit jump' (ctx.shift δ) runs n) unrelated) :
    InStep gave R (visitCommand jump ctx first ns) (visitCommand jump' (ctx.shift δ) first ns)
      unrelated := by
  induction ns generalizing first with
  | nil => exact .pure trivial
  | cons n ns ih =>
    have hn := hns n List.mem_cons_self
    have rest : InStep gave R (visitCommand jump ctx false ns)
        (visitCommand jump' (ctx.shift δ) false ns) unrelated :=
      ih (fun m hm => hns m (List.mem_cons_of_mem n hm)) fun m hm => h m (List.mem_cons_of_mem n hm)
    have next :=
      InStep.bind (h n List.mem_cons_self (Kind.command.runsChild first)) fun _ _ _ => rest
    unfold Walk.visitCommand
    split
    · exact .pure trivial
    · rename_i hkind
      refine .bind (.asks (.callee n) (callee_returns hkind)) ?_
      rintro name _ ⟨rfl, hcalls⟩
      split
      · exact .pure trivial
      · have lookup : InStep gave R (Walk.lookup name) (Walk.lookup name) fun a b =>
            a = b ∧ ∀ f ∈ a, ∀ m ∈ f.body, N m :=
          fun s t hs =>
            .ok ⟨by rw [parallel.functions hs], fun f hf => parallel.body hn hcalls hs hf⟩ hs
        refine .bind lookup ?_
        rintro f? _ ⟨rfl, hbody⟩
        cases f? with
        | none => exact next
        | some f =>
          by_cases hentered : f.entered = true
          · simp only [hentered, if_true]
            exact .pure trivial
          · simp only [hentered]
            exact .bind (.modify fun _ _ hs => parallel.enter name hs) fun _ _ _ =>
              .bind (hjump (.body f.body { ctx with function := name }) (hbody f rfl))
                fun _ _ _ => rest
    · exact next

theorem inStep_visit (hn : N n) (runs : Bool) :
    InStep gave R (visit jump ctx runs n) (visit jump' (ctx.shift δ) runs n) unrelated := by
  induction n using Node.induction generalizing runs with
  | step n ih =>
    have below (c : Node) (hc : c ∈ n.children) := ih c hc (parallel.child hn hc)
    obtain ⟨kind, written, row, column, endColumn, children⟩ := n
    have all : InStep gave R (visitAll jump ctx kind true children)
        (visitAll jump' (ctx.shift δ) kind true children) unrelated :=
      inStep_visitAll_of_visit below
    have branches : InStep gave R (visitBranches jump ctx kind true children)
        (visitBranches jump' (ctx.shift δ) kind true children) unrelated :=
      parallel.inStep_visitBranches_of_visit below
    have opener : InStep gave R (opener children) (opener children) fun a b => a = b ∧ True :=
      .asks (.opener children) (.any _)
    unfold Walk.visit
    refine .bind parallel.inStep_countVisit fun _ _ _ => ?_
    split
    · exact parallel.inStep_defineFunction hn rfl
    · have run := fun ctx script => hjump (.script script ctx)
      exact .bind (parallel.inStep_command run hn rfl) fun _ _ _ =>
        parallel.inStep_visitCommand_of_visit hjump (fun c hc => parallel.child hn hc) below
    · refine .bind opener ?_
      rintro opening _ ⟨rfl, -⟩
      exact parallel.inStep_test hn opening false
    · refine .bind opener ?_
      rintro opening _ ⟨rfl, -⟩
      exact parallel.inStep_arithmetic hn opening false
    · refine .bind (parallel.inStep_declarePairs children) fun _ _ _ => ?_
      have isLocal : Returns (isLocal children) fun own =>
          own = children.head?.any (·.kind = .localKeyword) := by
        cases children with
        | nil => exact fun _ _ _ h => by cases h
        | cons c cs => exact .pure (by simp)
      refine .bind (.asks (.isLocal children) isLocal) ?_
      rintro own _ ⟨rfl, rfl⟩
      split
      · exact parallel.inStep_localDeclaration hjump hn ⟨rfl, by assumption⟩
      · exact all
    · exact parallel.inStep_assignment hjump hn rfl
    · exact parallel.inStep_subscript _
    · exact branches
    · exact branches
    · split
      · exact parallel.inStep_expansionStatement _ runs
      · exact all

end Visits

/-! ### Jumps -/

omit parallel in
theorem addUses (parallel : Parallel ⟨0, 0⟩ N S R) (uses : List Use) {s t : State} (hs : R s t) :
    R { s with used := s.used ++ uses } { t with used := t.used ++ uses } := by
  induction uses generalizing s t with
  | nil => simpa using hs
  | cons u uses ih =>
    have added := ih (parallel.add (.use u) hs)
    simpa [State.add, Survey.add] using added

omit parallel in
/-- Walks that stand in the same place jump alike, to any depth. -/
theorem inStep_follow (parallel : Parallel ⟨0, 0⟩ N S R) {parse? : String → Option Node}
    (hparse : ∀ {script : String} {root : Node}, S script →
      parse? (String.ofList (unquote script.toList)) = some root → N root)
    (hunmark : ∀ {line : Int} {s t : State}, R s t →
      R { s with assigned := unmarkFirst line s.assigned }
        { t with assigned := unmarkFirst line t.assigned })
    (budget : Nat) (jump : Jump) (hjump : Admitted (fun _ => N) (fun _ => S) jump) :
    InStep (fun _ => False) R (follow parse? budget jump) (follow parse? budget (jump.shift ⟨0, 0⟩))
      unrelated := by
  induction budget generalizing jump with
  | zero => exact .throw .exhausted
  | succ budget ih =>
    cases jump with
    | body parts ctx =>
      exact inStep_visitAll_of_visit fun n hn runs => parallel.inStep_visit ih (hjump n hn) runs
    | script script ctx =>
      rw [Jump.shift_zero]
      unfold follow commandString
      split
      · exact .pure trivial
      · refine .recovering (.bind (.when fun _ => .modify fun _ _ hs => hunmark hs) fun _ _ _ => ?_)
          (.modify fun _ _ hs => parallel.addUses _ hs)
        split
        · rename_i root hroot
          simpa using parallel.inStep_visit ih (hparse hjump hroot) false
        · exact .throw _

end Parallel

end ShellAudit.Walk
