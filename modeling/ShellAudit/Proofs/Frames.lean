-- SUMMARY: Which parts of the state the walks that stay at one node leave as they are.
import ShellAudit.Proofs.Composed

/-!
# Frames

Most walks touch little of the state. `Keeps A walk` says that a walk leaves the parts
`A` of the state as they are, whether it returns or stops with a fault. Which parts a walk
touches is said by the ones that must not be among those.
-/

namespace ShellAudit.Walk

/-- A part of the state. -/
inductive Aspect where
  | scope
  | taint
  | assigned
  | used
  | commands
  | subscripts
  | injectable
  | pairs
  | functions
  | visits
deriving DecidableEq

/-- The part is the same in both states. -/
def Aspect.Same : Aspect → State → State → Prop
  | scope, s, t => t.scope = s.scope
  | taint, s, t => t.tainted = s.tainted
  | assigned, s, t => t.assigned = s.assigned
  | used, s, t => t.used = s.used
  | commands, s, t => t.commands = s.commands
  | subscripts, s, t => t.subscripts = s.subscripts
  | injectable, s, t => t.injectable = s.injectable
  | pairs, s, t => t.pairs = s.pairs
  | functions, s, t => t.functions = s.functions
  | visits, s, t => t.visits = s.visits

/-- The parts that the reading of values touches. -/
def Aspect.ofValues : List Aspect := [scope, taint, assigned, commands, subscripts]

namespace Aspect.Same

variable {a : Aspect}

theorem refl (s : State) : a.Same s s := by
  cases a <;> rfl

theorem trans {s t u : State} (hst : a.Same s t) (htu : a.Same t u) : a.Same s u := by
  cases a <;> exact Eq.trans htu hst

end Aspect.Same

/-- The walk leaves the parts `A` of the state as they are, however it ends. -/
def Keeps (A : List Aspect) {α : Type} (walk : Walk α) : Prop :=
  ∀ s, ∀ a ∈ A, a.Same s (walk.exec s).2

namespace Keeps

variable {A : List Aspect}

theorem pure {α : Type} (x : α) : Keeps A (pure x) := fun s _ _ => .refl s

theorem throw {α : Type} (fault : Fault) : Keeps A (throw fault : Walk α) := fun s _ _ => .refl s

theorem bind {α β : Type} {walk : Walk α} {next : α → Walk β} (h : Keeps A walk)
    (hnext : ∀ x, Keeps A (next x)) : Keeps A (walk >>= next) := by
  intro s a ha
  have first := h s a ha
  rw [exec_bind]
  rcases hexec : walk.exec s with ⟨fault | x, t⟩ <;> rw [hexec] at first
  · exact first
  · exact first.trans (hnext x t a ha)

theorem when {p : Prop} [Decidable p] {step : Walk Unit} (h : Keeps A step) :
    Keeps A (when p step) := by
  unfold Walk.when
  split
  · exact h
  · exact .pure ()

theorem liftExcept {α : Type} (x : Except Fault α) : Keeps A (liftExcept x) := fun s _ _ => .refl s

/-! ## Single steps -/

theorem resolve (h : Aspect.scope ∉ A) (name : String) : Keeps A (resolve name) := by
  intro s a ha
  unfold Walk.resolve
  simp only [exec_bind, exec_get]
  split
  · exact .refl s
  · cases a <;> first | rfl | exact absurd ha h

theorem declare (h : Aspect.scope ∉ A) (name : String) : Keeps A (declare name) := by
  intro s a ha
  cases a <;> first | rfl | exact absurd ha h

theorem retract (h : Aspect.scope ∉ A) (name : String) : Keeps A (retract name) := by
  intro s a ha
  unfold Walk.retract
  simp only [exec_bind, exec_get]
  split
  · cases a <;> first | rfl | exact absurd ha h
  · exact .refl s

theorem assignTaint (h : Aspect.taint ∉ A) (name : String) (value : Value) :
    Keeps A (assignTaint name value) := by
  intro s a ha
  cases a <;> first | rfl | exact absurd ha h

theorem taint (h : Aspect.taint ∉ A) (name : String) : Keeps A (taint name) := by
  intro s a ha
  cases a <;> first | rfl | exact absurd ha h

theorem recordAssignment (h : Aspect.assigned ∉ A) (x : Assignment) :
    Keeps A (recordAssignment x) := by
  intro s a ha
  cases a <;> first | rfl | exact absurd ha h

theorem recordUse (h : Aspect.used ∉ A) (u : Use) : Keeps A (recordUse u) := by
  intro s a ha
  cases a <;> first | rfl | exact absurd ha h

theorem recordCommand (h : Aspect.commands ∉ A) (c : Command) : Keeps A (recordCommand c) := by
  intro s a ha
  cases a <;> first | rfl | exact absurd ha h

theorem recordSubscript (h : Aspect.subscripts ∉ A) (x : Subscript) :
    Keeps A (recordSubscript x) := by
  intro s a ha
  cases a <;> first | rfl | exact absurd ha h

theorem recordInjectable (h : Aspect.injectable ∉ A) (i : Injectable) :
    Keeps A (recordInjectable i) := by
  intro s a ha
  cases a <;> first | rfl | exact absurd ha h

theorem recordPair (h : Aspect.pairs ∉ A) (p : Pair) : Keeps A (recordPair p) := by
  intro s a ha
  cases a <;> first | rfl | exact absurd ha h

theorem countVisit (h : Aspect.visits ∉ A) : Keeps A countVisit := by
  intro s a ha
  cases a <;> first | rfl | exact absurd ha h

theorem define (h : Aspect.functions ∉ A) (name : String) (body : List Node) :
    Keeps A (define name body) := by
  intro s a ha
  cases a <;> first | rfl | exact absurd ha h

theorem enter (h : Aspect.functions ∉ A) (name : String) : Keeps A (enter name) := by
  intro s a ha
  cases a <;> first | rfl | exact absurd ha h

theorem text (n : Node) : Keeps A (text n) := by
  unfold Walk.text
  split
  · exact .pure _
  · exact .throw _

/-! ## Expansions, tests and arithmetic -/

theorem subscript (h : Aspect.subscripts ∉ A) (ctx : Context) (n : Node) :
    Keeps A (subscript ctx n) := by
  unfold Walk.subscript
  exact .bind (.text n) fun _ => .recordSubscript h _

theorem expansion (hsubscripts : Aspect.subscripts ∉ A) (hused : Aspect.used ∉ A) (ctx : Context)
    (n : Node) : Keeps A (expansion ctx n) := by
  unfold Walk.expansion
  exact .bind (.text n) fun _ => .bind (.when (.subscript hsubscripts ctx n)) fun _ =>
    .recordUse hused _

theorem runExpansion (h : Aspect.commands ∉ A) (ctx : Context) (n : Node) :
    Keeps A (runExpansion ctx n) := by
  unfold Walk.runExpansion
  exact .bind (.text n) fun _ => .recordCommand h _

theorem injectable (hscope : Aspect.scope ∉ A) (hinjectable : Aspect.injectable ∉ A)
    (ctx : Context) (opener : String) (n : Node) : Keeps A (injectable ctx opener n) := by
  unfold Walk.injectable
  exact .bind (.text n) fun _ => .bind (.resolve hscope _) fun _ => .recordInjectable hinjectable _

theorem armsTest (ns : List Node) : Keeps A (armsTest ns) := by
  induction ns with
  | nil => exact .pure false
  | cons n ns ih =>
    unfold Walk.armsTest
    split
    · exact .bind (.text n) fun _ => .bind ih fun _ => .pure _
    · exact ih

theorem testAll {ctx : Context} {opener : String} {armed : Bool} {ns : List Node}
    (h : ∀ n ∈ ns, ∀ armed, Keeps A (test ctx opener armed n)) :
    Keeps A (testAll ctx opener armed ns) := by
  induction ns with
  | nil => exact .pure ()
  | cons n ns ih =>
    unfold Walk.testAll
    exact .bind (h n List.mem_cons_self armed) fun _ =>
      ih fun m hm => h m (List.mem_cons_of_mem n hm)

theorem test (hscope : Aspect.scope ∉ A) (hinjectable : Aspect.injectable ∉ A)
    (hsubscripts : Aspect.subscripts ∉ A) (hused : Aspect.used ∉ A) (ctx : Context)
    (opener : String) (armed : Bool) (n : Node) : Keeps A (test ctx opener armed n) := by
  have own (armed : Bool) (n : Node) : Keeps A (testOwn ctx opener armed n) := by
    unfold Walk.testOwn
    split
    · exact .injectable hscope hinjectable ctx opener n
    · split
      · exact .expansion hsubscripts hused ctx n
      · exact .pure ()
  induction n using Node.induction generalizing armed with
  | step n ih =>
    obtain ⟨kind, written, row, column, endColumn, children⟩ := n
    unfold Walk.test
    exact .bind (own armed _) fun _ => .bind (.armsTest children) fun _ =>
      .testAll fun n hn armed => ih n hn armed

theorem arithmeticAll {ctx : Context} {opener : String} {armed : Bool} {ns : List Node}
    (h : ∀ n ∈ ns, ∀ armed, Keeps A (arithmetic ctx opener armed n)) :
    Keeps A (arithmeticAll ctx opener armed ns) := by
  induction ns with
  | nil => exact .pure ()
  | cons n ns ih =>
    unfold Walk.arithmeticAll
    exact .bind (h n List.mem_cons_self armed) fun _ =>
      ih fun m hm => h m (List.mem_cons_of_mem n hm)

theorem arithmetic (hscope : Aspect.scope ∉ A) (hinjectable : Aspect.injectable ∉ A)
    (ctx : Context) (opener : String) (armed : Bool) (n : Node) :
    Keeps A (arithmetic ctx opener armed n) := by
  induction n using Node.induction generalizing armed with
  | step n ih =>
    obtain ⟨kind, written, row, column, endColumn, children⟩ := n
    unfold Walk.arithmetic
    exact .bind (.when (.injectable hscope hinjectable ctx opener _)) fun _ =>
      .arithmeticAll fun n hn armed => ih n hn armed

/-! ## Declarations -/

theorem opener (ns : List Node) : Keeps A (opener ns) := by
  cases ns with
  | nil => exact .throw _
  | cons n ns => exact .pure _

theorem isLocal (ns : List Node) : Keeps A (isLocal ns) := by
  cases ns with
  | nil => exact .throw _
  | cons n ns => exact .pure _

theorem callee (n : Node) : Keeps A (callee n) := by
  unfold Walk.callee
  split
  · exact .throw _
  · exact .text _

theorem defineFunction (h : Aspect.functions ∉ A) (children : List Node) :
    Keeps A (defineFunction children) := by
  unfold Walk.defineFunction
  split
  · exact .throw _
  · refine .bind (.text _) fun name => ?_
    split
    · exact .throw _
    · exact .define h name children

theorem variableNamesAll {ns : List Node} (h : ∀ n ∈ ns, Keeps A (variableNames n)) :
    Keeps A (variableNamesAll ns) := by
  induction ns with
  | nil => exact .pure []
  | cons n ns ih =>
    unfold Walk.variableNamesAll
    exact .bind (h n List.mem_cons_self) fun _ =>
      .bind (ih fun m hm => h m (List.mem_cons_of_mem n hm)) fun _ => .pure _

theorem variableNames (n : Node) : Keeps A (variableNames n) := by
  have own (n : Node) : Keeps A (ownName n) := by
    unfold Walk.ownName
    split
    · exact .bind (.text n) fun _ => .pure _
    · exact .pure []
  induction n using Node.induction with
  | step n ih =>
    obtain ⟨kind, written, row, column, endColumn, children⟩ := n
    unfold Walk.variableNames
    exact .bind (own _) fun _ => .bind (.variableNamesAll ih) fun _ => .pure _

theorem declarePairs (h : Aspect.pairs ∉ A) (ctx : Context) (ns : List Node) :
    Keeps A (declarePairs ctx ns) := by
  have declarePair (n : Node) : Keeps A (declarePair ctx n) := by
    refine .bind (.variableNames n) fun names => ?_
    split
    · exact .recordPair h _
    · exact .pure ()
  induction ns with
  | nil => exact .pure ()
  | cons n ns ih =>
    unfold Walk.declarePairs
    exact .bind (.when (declarePair n)) fun _ => ih

theorem declareLocal (h : Aspect.scope ∉ A) (locals : NameSet) (name : String) :
    Keeps A (declareLocal locals name) :=
  .bind (.declare h name) fun _ => .pure _

theorem firstCharacter (n : Node) : Keeps A (firstCharacter n) := by
  refine .bind (.text n) fun written => ?_
  split
  · exact .throw _
  · exact .pure _

theorem retractAll (h : Aspect.scope ∉ A) (names : List String) : Keeps A (retractAll names) := by
  induction names with
  | nil => exact .pure ()
  | cons name names ih => exact .bind (.retract h name) fun _ => ih

/-! ## Values and commands -/

theorem draftName (draft : Draft) (n : Node) : Keeps A (draftName draft n) :=
  .bind (.text _) fun _ => .pure _

theorem draftArgument (draft : Draft) (n : Node) : Keeps A (draftArgument draft n) := by
  refine .bind (.text n) fun written => ?_
  split
  · exact .pure _
  · exact .pure _

theorem readInto (hscope : Aspect.scope ∉ A) (hassigned : Aspect.assigned ∉ A)
    (htaint : Aspect.taint ∉ A) (ctx : Context) (n : Node) (arguments : List String) :
    Keeps A (readInto ctx n arguments) := by
  have readVariable (argument : String) : Keeps A (readVariable ctx n argument) :=
    .bind (.resolve hscope argument) fun _ => .bind (.recordAssignment hassigned _) fun _ =>
      .taint htaint _
  induction arguments with
  | nil => exact .pure ()
  | cons argument rest ih =>
    unfold Walk.readInto
    exact .bind (.when (readVariable argument)) fun _ => ih

section Values

variable {jump : Jump → Walk Unit} (h : ∀ a ∈ Aspect.ofValues, a ∉ A)
  (hjump : ∀ script ctx, Keeps A (jump (.script script ctx))) (ctx : Context)

include h hjump

theorem finish (n : Node) (draft : Draft) : Keeps A (finish jump ctx n draft) := by
  have hscope := h .scope (by decide)
  have runNested (c : Command) : Keeps A (runNested jump ctx c) := by
    unfold Walk.runNested
    split
    · split
      · exact hjump _ _
      · exact .pure ()
    · exact .pure ()
  unfold Walk.finish
  split
  · exact .pure none
  · refine .bind ?_ fun _ => .pure _
    exact .bind (.resolve hscope _) fun _ =>
      .bind (.recordCommand (h .commands (by decide)) _) fun _ =>
      .bind (.when (.readInto hscope (h .assigned (by decide)) (h .taint (by decide)) ctx n _))
        fun _ => .bind (runNested _) fun _ => .pure _

omit h hjump in
theorem ownPart (hsubscripts : Aspect.subscripts ∉ A) {recorded : Walk (Option Command)} {n : Node}
    (hrecorded : n.kind = .command → Keeps A recorded) : Keeps A (ownPart ctx recorded n) := by
  unfold Walk.ownPart
  split
  · exact .bind (.liftExcept _) fun _ => .pure _
  · exact .bind (.text n) fun _ => .pure _
  · exact .bind (hrecorded ‹_›) fun _ => .pure _
  · exact .bind (.subscript hsubscripts ctx n) fun _ => .pure _
  · exact .pure []

omit h hjump in
theorem partsAll {ns : List Node} (hparts : ∀ n ∈ ns, Keeps A (parts jump ctx n)) :
    Keeps A (partsAll jump ctx ns) := by
  induction ns with
  | nil => exact .pure []
  | cons n ns ih =>
    unfold Walk.partsAll
    exact .bind (hparts n List.mem_cons_self) fun _ =>
      .bind (ih fun m hm => hparts m (List.mem_cons_of_mem n hm)) fun _ => .pure _

omit h hjump in
theorem lastValue_of_parts {ns : List Node} (hparts : ∀ n ∈ ns, Keeps A (parts jump ctx n)) :
    Keeps A (lastValue jump ctx ns) := by
  induction ns with
  | nil => exact .throw _
  | cons n ns ih =>
    cases ns with
    | nil =>
      unfold Walk.lastValue
      exact .bind (hparts n List.mem_cons_self) fun _ => .bind (.text n) fun _ => .pure _
    | cons m ms =>
      unfold Walk.lastValue
      exact ih fun k hk => hparts k (List.mem_cons_of_mem n hk)

omit hjump in
theorem draftChildren_of_lastValue {ns : List Node} (draft : Draft)
    (hvalues : ∀ n ∈ ns, Keeps A (lastValue jump ctx n.children)) :
    Keeps A (draftChildren jump ctx draft ns) := by
  have hscope := h .scope (by decide)
  have htaint := h .taint (by decide)
  have hassigned := h .assigned (by decide)
  induction ns generalizing draft with
  | nil => exact .pure draft
  | cons n ns ih =>
    obtain ⟨kind, written, row, column, endColumn, children⟩ := n
    have rest := fun draft => ih draft fun m hm => hvalues m (List.mem_cons_of_mem _ hm)
    unfold Walk.draftChildren
    split
    · exact .bind (.text _) fun _ => .bind (.resolve hscope _) fun _ =>
        .bind (hvalues _ List.mem_cons_self) fun _ => .bind (.recordAssignment hassigned _) fun _ =>
          .bind (.assignTaint htaint _ _) fun _ => rest draft
    · exact .bind (.draftName draft _) fun draft => rest draft
    · split
      · exact .bind (.draftArgument draft _) fun draft => rest draft
      · exact rest draft

theorem parts_and_lastValue (n : Node) :
    Keeps A (parts jump ctx n) ∧ Keeps A (lastValue jump ctx n.children) := by
  induction n using Node.induction with
  | step n ih =>
    obtain ⟨kind, written, row, column, endColumn, children⟩ := n
    have draft : Keeps A (draftChildren jump ctx {} children) :=
      .draftChildren_of_lastValue h ctx {} fun n hn => (ih n hn).2
    refine ⟨?_, .lastValue_of_parts ctx fun n hn => (ih n hn).1⟩
    unfold Walk.parts
    have recorded := Keeps.bind draft fun draft =>
      .finish h hjump ctx ⟨kind, written, row, column, endColumn, children⟩ draft
    exact .bind (.ownPart ctx (h .subscripts (by decide)) fun _ => recorded) fun _ =>
      .bind (.partsAll ctx fun n hn => (ih n hn).1) fun _ => .pure _

theorem lastValue (ns : List Node) : Keeps A (lastValue jump ctx ns) :=
  .lastValue_of_parts ctx fun n _ => (parts_and_lastValue h hjump ctx n).1

theorem command (n : Node) : Keeps A (command jump ctx n) :=
  .bind (.draftChildren_of_lastValue h ctx {} fun n _ => .lastValue h hjump ctx n.children)
    fun _ => .finish h hjump ctx n _

theorem localDeclaration (n : Node) : Keeps A (localDeclaration jump ctx n) := by
  have hscope := h .scope (by decide)
  have htaint := h .taint (by decide)
  have declareLocals (locals : NameSet) (ns : List Node) :
      Keeps A (declareLocals jump ctx n locals ns) := by
    induction ns generalizing locals with
    | nil => exact .pure locals
    | cons m ms ih =>
      unfold Walk.declareLocals
      split
      · exact .bind (.text m) fun _ => .bind (.lastValue h hjump ctx m.children) fun _ =>
          .bind (.assignTaint htaint _ _) fun _ =>
            .bind (.declareLocal hscope locals _) fun locals => ih locals
      · exact .bind (.firstCharacter n) fun _ =>
          .bind (.declareLocal hscope locals _) fun locals => ih locals
      · exact ih locals
  exact .bind (declareLocals ∅ n.children) fun _ => .retractAll hscope _

theorem assignment (n : Node) : Keeps A (assignment jump ctx n) := by
  exact .bind (.text n) fun _ => .bind (.resolve (h .scope (by decide)) _) fun _ =>
    .bind (.when (.subscript (h .subscripts (by decide)) ctx n)) fun _ =>
      .bind (.lastValue h hjump ctx n.children) fun _ =>
        .bind (.recordAssignment (h .assigned (by decide)) _) fun _ =>
          .assignTaint (h .taint (by decide)) _ _

end Values

end Keeps

end ShellAudit.Walk
