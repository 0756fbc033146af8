-- SUMMARY: Every walk is composed of a few single steps, so what the steps keep, the walk keeps.
import ShellAudit.Walk.Run

/-!
# What a walk is made of

A walk touches its state through the single steps of `Walk.State` only, and most
of it does no more than record, resolve names and taint them; this is `Plain`.
`Composed` adds the steps that leave the node being walked: counting visits,
noting and entering functions, joining branches and recovering from faults. It
relates two walks that do the same steps but may jump differently. What holds of
the single steps and goes through sequencing, joining and recovering holds of
every walk.
-/

namespace ShellAudit.Walk

/-- A walk that only records, and changes scope and taint. -/
inductive Plain : {α : Type} → Walk α → Prop
  | pure {α : Type} (a : α) : Plain (pure a)
  | throw {α : Type} (fault : Fault) (h : fault ≠ .exhausted) : Plain (throw fault : Walk α)
  | bind {α β : Type} {walk : Walk α} {next : α → Walk β} :
      Plain walk → (∀ a, Plain (next a)) → Plain (walk >>= next)
  | resolve (name : String) : Plain (resolve name)
  | declare (name : String) : Plain (declare name)
  | retract (name : String) : Plain (retract name)
  | assignTaint (name : String) (value : Value) : Plain (assignTaint name value)
  | taint (name : String) : Plain (taint name)
  | recordAssignment (a : Assignment) : Plain (recordAssignment a)
  | recordUse (u : Use) : Plain (recordUse u)
  | recordCommand (c : Command) : Plain (recordCommand c)
  | recordSubscript (x : Subscript) : Plain (recordSubscript x)
  | recordInjectable (i : Injectable) : Plain (recordInjectable i)
  | recordPair (p : Pair) : Plain (recordPair p)
  | recordSimple (line : Int) (text : String) : Plain (recordSimple line text)
  | unmark (line : Int) : Plain (unmark line)

/-- Two walks that are put together in the same way, from the same single steps
and from walks that `R` relates. -/
inductive Composed (R : Walk Unit → Walk Unit → Prop) : {α : Type} → Walk α → Walk α → Prop
  | plain {α : Type} {walk : Walk α} : Plain walk → Composed R walk walk
  | related {walk walk' : Walk Unit} : R walk walk' → Composed R walk walk'
  | bind {α β : Type} {walk walk' : Walk α} {next next' : α → Walk β} :
      Composed R walk walk' → (∀ a, Composed R (next a) (next' a)) →
        Composed R (walk >>= next) (walk' >>= next')
  | joinTaint {step step' : Walk Unit} :
      Composed R step step' → Composed R (joinTaint step) (joinTaint step')
  | countVisit : Composed R countVisit countVisit
  | define (name : String) (body : List Node) : Composed R (define name body) (define name body)
  | enter (name : String) : Composed R (enter name) (enter name)
  | lookup (name : String) : Composed R (lookup name) (lookup name)
  | recovering {step step' recover recover' : Walk Unit} :
      Composed R step step' → Composed R recover recover' →
        Composed R (recovering step recover) (recovering step' recover')

/-! ## Plain walks -/

namespace Plain

theorem when {p : Prop} [Decidable p] {step : Walk Unit} (h : Plain step) :
    Plain (when p step) := by
  unfold Walk.when
  split
  · exact h
  · exact .pure ()

theorem liftExcept {α : Type} {x : Except Fault α} (h : x ≠ .error .exhausted) :
    Plain (liftExcept x) := by
  cases x with
  | ok a => exact .pure a
  | error fault => exact .throw fault fun hf => h (hf ▸ rfl)

theorem text (node : Node) : Plain (text node) := by
  unfold Walk.text
  split
  · exact .pure _
  · exact .throw _ (by decide)

/-! ### Expansions and tests -/

theorem subscript (ctx : Context) (node : Node) : Plain (subscript ctx node) := by
  unfold Walk.subscript
  exact .bind (.text node) fun _ => .recordSubscript _

theorem expansion (ctx : Context) (node : Node) : Plain (expansion ctx node) := by
  unfold Walk.expansion
  exact .bind (.text node) fun _ => .bind (.when (.subscript ctx node)) fun _ => .recordUse _

theorem expansionStatement (ctx : Context) (runs : Bool) (node : Node) :
    Plain (expansionStatement ctx runs node) := by
  have runExpansion : Plain (runExpansion ctx node) :=
    .bind (.text node) fun _ => .recordCommand _
  exact .bind (.expansion ctx node) fun _ => .when runExpansion

theorem injectable (ctx : Context) (opener : String) (node : Node) :
    Plain (injectable ctx opener node) := by
  unfold Walk.injectable
  exact .bind (.text node) fun _ => .bind (.resolve _) fun _ => .recordInjectable _

theorem armsTest (nodes : List Node) : Plain (armsTest nodes) := by
  induction nodes with
  | nil => exact .pure false
  | cons n ns ih =>
    unfold Walk.armsTest
    split
    · exact .bind (.text n) fun _ => .bind ih fun _ => .pure _
    · exact ih

theorem testOwn (ctx : Context) (opener : String) (armed : Bool) (node : Node) :
    Plain (testOwn ctx opener armed node) := by
  unfold Walk.testOwn
  split
  · exact .injectable ctx opener node
  · split
    · exact .expansion ctx node
    · exact .pure ()

theorem testAll {ctx : Context} {opener : String} {armed : Bool} {nodes : List Node}
    (h : ∀ n ∈ nodes, ∀ armed, Plain (test ctx opener armed n)) :
    Plain (testAll ctx opener armed nodes) := by
  induction nodes with
  | nil => exact .pure ()
  | cons n ns ih =>
    unfold Walk.testAll
    exact .bind (h n List.mem_cons_self armed) fun _ =>
      ih fun m hm => h m (List.mem_cons_of_mem _ hm)

theorem test (ctx : Context) (opener : String) (armed : Bool) (node : Node) :
    Plain (test ctx opener armed node) := by
  induction node using Node.induction generalizing armed with
  | step node ih =>
    obtain ⟨kind, written, row, column, endColumn, children⟩ := node
    unfold Walk.test
    exact .bind (.testOwn ctx opener armed _) fun _ => .bind (.armsTest children) fun _ =>
      .testAll fun n hn armed => ih n hn armed

theorem arithmeticAll {ctx : Context} {opener : String} {armed : Bool} {nodes : List Node}
    (h : ∀ n ∈ nodes, ∀ armed, Plain (arithmetic ctx opener armed n)) :
    Plain (arithmeticAll ctx opener armed nodes) := by
  induction nodes with
  | nil => exact .pure ()
  | cons n ns ih =>
    unfold Walk.arithmeticAll
    exact .bind (h n List.mem_cons_self armed) fun _ =>
      ih fun m hm => h m (List.mem_cons_of_mem _ hm)

theorem arithmetic (ctx : Context) (opener : String) (armed : Bool) (node : Node) :
    Plain (arithmetic ctx opener armed node) := by
  induction node using Node.induction generalizing armed with
  | step node ih =>
    obtain ⟨kind, written, row, column, endColumn, children⟩ := node
    unfold Walk.arithmetic
    exact .bind (.when (.injectable ctx opener _)) fun _ =>
      .arithmeticAll fun n hn armed => ih n hn armed

/-! ### Parameters -/

theorem firstParameter?_ne_exhausted {nodes : List Node}
    (h : ∀ n ∈ nodes, parameter? n ≠ .error .exhausted) :
    firstParameter? nodes ≠ .error .exhausted := by
  induction nodes with
  | nil => simp [firstParameter?]
  | cons n ns ih =>
    have rest := ih fun m hm => h m (List.mem_cons_of_mem _ hm)
    unfold firstParameter?
    split
    · split
      · exact rest
      · simp
    · exact rest
    · rename_i fault hfault
      exact hfault ▸ h n List.mem_cons_self

theorem parameter?_ne_exhausted (node : Node) : parameter? node ≠ .error .exhausted := by
  induction node using Node.induction with
  | step node ih =>
    obtain ⟨kind, written, row, column, endColumn, children⟩ := node
    unfold parameter?
    split
    · split <;> simp
    · exact firstParameter?_ne_exhausted ih

theorem braced (node : Node) (frame : Option Frame) :
    Plain (Walk.liftExcept (Walk.braced node frame)) := by
  have named := parameter?_ne_exhausted node
  refine .liftExcept fun h => ?_
  unfold Walk.braced at h
  cases hname : parameter? node with
  | error fault =>
    rw [hname] at h named
    cases h
    exact named rfl
  | ok name? =>
    rw [hname] at h
    cases htext : node.text <;> cases name? <;> rw [htext] at h <;> cases h

/-! ### Drafts and declarations -/

theorem draftName (draft : Draft) (node : Node) : Plain (draftName draft node) := by
  unfold Walk.draftName
  exact .bind (.text _) fun _ => .pure _

theorem draftArgument (draft : Draft) (node : Node) : Plain (draftArgument draft node) := by
  unfold Walk.draftArgument
  refine .bind (.text node) fun written => ?_
  split
  · exact .pure _
  · exact .pure _

theorem readInto (ctx : Context) (node : Node) (arguments : List String) :
    Plain (readInto ctx node arguments) := by
  induction arguments with
  | nil => exact .pure ()
  | cons argument rest ih =>
    have readVariable : Plain (readVariable ctx node argument) :=
      .bind (.resolve argument) fun _ => .bind (.recordAssignment _) fun _ => .taint _
    unfold Walk.readInto
    exact .bind (.when readVariable) fun _ => ih

theorem variableNamesAll {nodes : List Node} (h : ∀ n ∈ nodes, Plain (variableNames n)) :
    Plain (variableNamesAll nodes) := by
  induction nodes with
  | nil => exact .pure []
  | cons n ns ih =>
    unfold Walk.variableNamesAll
    exact .bind (h n List.mem_cons_self) fun _ =>
      .bind (ih fun m hm => h m (List.mem_cons_of_mem _ hm)) fun _ => .pure _

theorem variableNames (node : Node) : Plain (variableNames node) := by
  induction node using Node.induction with
  | step node ih =>
    obtain ⟨kind, written, row, column, endColumn, children⟩ := node
    have own : Plain (ownName ⟨kind, written, row, column, endColumn, children⟩) := by
      unfold Walk.ownName
      split
      · exact .bind (.text _) fun _ => .pure _
      · exact .pure []
    unfold Walk.variableNames
    exact .bind own fun _ => .bind (.variableNamesAll ih) fun _ => .pure _

theorem declarePairs (ctx : Context) (nodes : List Node) : Plain (declarePairs ctx nodes) := by
  induction nodes with
  | nil => exact .pure ()
  | cons n ns ih =>
    have declarePair : Plain (declarePair ctx n) := by
      refine .bind (.variableNames n) fun names => ?_
      split
      · exact .recordPair _
      · exact .pure ()
    unfold Walk.declarePairs
    exact .bind (.when declarePair) fun _ => ih

theorem declareLocal (locals : NameSet) (name : String) : Plain (declareLocal locals name) :=
  .bind (.declare name) fun _ => .pure _

theorem firstCharacter (node : Node) : Plain (firstCharacter node) := by
  refine .bind (.text node) fun written => ?_
  split
  · exact .throw _ (by decide)
  · exact .pure _

theorem retractAll (names : List String) : Plain (retractAll names) := by
  induction names with
  | nil => exact .pure ()
  | cons name names ih => exact .bind (.retract name) fun _ => ih

theorem opener (nodes : List Node) : Plain (opener nodes) := by
  cases nodes with
  | nil => exact .throw _ (by decide)
  | cons n ns => exact .pure _

theorem isLocal (nodes : List Node) : Plain (isLocal nodes) := by
  cases nodes with
  | nil => exact .throw _ (by decide)
  | cons n ns => exact .pure _

theorem callee (node : Node) : Plain (callee node) := by
  unfold Walk.callee
  split
  · exact .throw _ (by decide)
  · exact .text _

end Plain

/-! ## Walks that jump -/

namespace Composed

variable {R : Walk Unit → Walk Unit → Prop}

theorem pure {α : Type} (a : α) : Composed R (pure a) (pure a) := .plain (.pure a)

theorem text (node : Node) : Composed R (text node) (text node) := .plain (.text node)

theorem resolve (name : String) : Composed R (resolve name) (resolve name) := .plain (.resolve name)

/-! ### Values and commands -/

section Values

variable {jump jump' : Jump → Walk Unit} (hjump : ∀ j, Composed R (jump j) (jump' j))
  (ctx : Context)

include hjump in
theorem runNested (c : Command) : Composed R (runNested jump ctx c) (runNested jump' ctx c) := by
  unfold Walk.runNested
  split
  · split
    · exact hjump _
    · exact .pure ()
  · exact .pure ()

include hjump in
theorem finish (node : Node) (draft : Draft) :
    Composed R (finish jump ctx node draft) (finish jump' ctx node draft) := by
  have record : Composed R (record jump ctx node draft) (record jump' ctx node draft) :=
    .bind (.resolve _) fun _ => .bind (.plain (.recordCommand _)) fun _ =>
      .bind (.plain (.when (.readInto ctx node _))) fun _ =>
        .bind (.runNested hjump ctx _) fun _ => .pure _
  unfold Walk.finish
  split
  · exact .pure none
  · exact .bind record fun _ => .pure _

theorem ownPart {recorded recorded' : Walk (Option Command)}
    (h : Composed R recorded recorded') (node : Node) :
    Composed R (ownPart ctx recorded node) (ownPart ctx recorded' node) := by
  unfold Walk.ownPart
  split
  · exact .plain (.bind (.braced node _) fun _ => .pure _)
  · exact .plain (.bind (.text node) fun _ => .pure _)
  · exact .bind h fun _ => .pure _
  · exact .plain (.bind (.subscript ctx node) fun _ => .pure _)
  · exact .pure []

theorem partsAll {nodes : List Node}
    (h : ∀ n ∈ nodes, Composed R (parts jump ctx n) (parts jump' ctx n)) :
    Composed R (partsAll jump ctx nodes) (partsAll jump' ctx nodes) := by
  induction nodes with
  | nil => exact .pure []
  | cons n ns ih =>
    unfold Walk.partsAll
    exact .bind (h n List.mem_cons_self) fun _ =>
      .bind (ih fun m hm => h m (List.mem_cons_of_mem _ hm)) fun _ => .pure _

theorem lastValue_of_parts {nodes : List Node}
    (h : ∀ n ∈ nodes, Composed R (parts jump ctx n) (parts jump' ctx n)) :
    Composed R (lastValue jump ctx nodes) (lastValue jump' ctx nodes) := by
  induction nodes with
  | nil => exact .plain (.throw _ (by decide))
  | cons n ns ih =>
    cases ns with
    | nil =>
      unfold Walk.lastValue
      exact .bind (h n List.mem_cons_self) fun _ => .bind (.text n) fun _ => .pure _
    | cons m ms =>
      unfold Walk.lastValue
      exact ih fun k hk => h k (List.mem_cons_of_mem _ hk)

theorem draftChildren_of_lastValue {nodes : List Node} (draft : Draft)
    (h : ∀ n ∈ nodes, Composed R (lastValue jump ctx n.children) (lastValue jump' ctx n.children)) :
    Composed R (draftChildren jump ctx draft nodes) (draftChildren jump' ctx draft nodes) := by
  induction nodes generalizing draft with
  | nil => exact .pure draft
  | cons n ns ih =>
    obtain ⟨kind, written, row, column, endColumn, children⟩ := n
    have rest := fun draft => ih draft fun m hm => h m (List.mem_cons_of_mem _ hm)
    unfold Walk.draftChildren
    split
    · exact .bind (.text _) fun _ => .bind (.resolve _) fun _ =>
        .bind (h _ List.mem_cons_self) fun _ => .bind (.plain (.recordAssignment _)) fun _ =>
          .bind (.plain (.assignTaint _ _)) fun _ => rest draft
    · exact .bind (.plain (.draftName draft _)) fun draft => rest draft
    · split
      · exact .bind (.plain (.draftArgument draft _)) fun draft => rest draft
      · exact rest draft

include hjump in
/-- A value below a node is read in two ways, as a part of the node's value and
as the value of an assignment; the induction carries both. -/
theorem parts_and_lastValue (node : Node) :
    Composed R (parts jump ctx node) (parts jump' ctx node) ∧
      Composed R (lastValue jump ctx node.children) (lastValue jump' ctx node.children) := by
  induction node using Node.induction with
  | step node ih =>
    obtain ⟨kind, written, row, column, endColumn, children⟩ := node
    have draft :
        Composed R (draftChildren jump ctx {} children) (draftChildren jump' ctx {} children) :=
      .draftChildren_of_lastValue ctx {} fun n hn => (ih n hn).2
    refine ⟨?_, .lastValue_of_parts ctx fun n hn => (ih n hn).1⟩
    unfold Walk.parts
    exact .bind (.ownPart ctx (.bind draft fun _ => .finish hjump ctx _ _) _) fun _ =>
      .bind (.partsAll ctx fun n hn => (ih n hn).1) fun _ => .pure _

include hjump in
theorem lastValue (nodes : List Node) :
    Composed R (lastValue jump ctx nodes) (lastValue jump' ctx nodes) :=
  .lastValue_of_parts ctx fun n _ => (parts_and_lastValue hjump ctx n).1

include hjump in
theorem command (node : Node) : Composed R (command jump ctx node) (command jump' ctx node) :=
  .bind (.draftChildren_of_lastValue ctx {} fun n _ => .lastValue hjump ctx n.children) fun _ =>
    .finish hjump ctx node _

end Values

/-! ### Visits -/

theorem defineFunction (children : List Node) :
    Composed R (defineFunction children) (defineFunction children) := by
  unfold Walk.defineFunction
  split
  · exact .plain (.throw _ (by decide))
  · refine .bind (.text _) fun name => ?_
    split
    · exact .plain (.throw _ (by decide))
    · exact .define name children

section Visits

variable {jump jump' : Jump → Walk Unit} (hjump : ∀ j, Composed R (jump j) (jump' j))
  (ctx : Context)

include hjump in
theorem declareLocals (declaration : Node) (locals : NameSet) (nodes : List Node) :
    Composed R (declareLocals jump ctx declaration locals nodes)
      (declareLocals jump' ctx declaration locals nodes) := by
  induction nodes generalizing locals with
  | nil => exact .pure locals
  | cons n ns ih =>
    unfold Walk.declareLocals
    split
    · exact .bind (.text n) fun _ => .bind (.lastValue hjump ctx n.children) fun _ =>
        .bind (.plain (.assignTaint _ _)) fun _ =>
          .bind (.plain (.declareLocal locals _)) fun locals => ih locals
    · exact .bind (.plain (.firstCharacter declaration)) fun _ =>
        .bind (.plain (.declareLocal locals _)) fun locals => ih locals
    · exact ih locals

include hjump in
theorem localDeclaration (node : Node) :
    Composed R (localDeclaration jump ctx node) (localDeclaration jump' ctx node) :=
  .bind (.declareLocals hjump ctx node ∅ node.children) fun _ => .plain (.retractAll _)

include hjump in
theorem assignment (node : Node) :
    Composed R (assignment jump ctx node) (assignment jump' ctx node) :=
  .bind (.text node) fun _ => .bind (.resolve _) fun _ =>
    .bind (.plain (.when (.subscript ctx node))) fun _ =>
      .bind (.lastValue hjump ctx node.children) fun _ =>
        .bind (.plain (.recordAssignment _)) fun _ => .plain (.assignTaint _ _)

theorem visitAll_of_visit {parent : Kind} {first : Bool} {nodes : List Node}
    (h : ∀ n ∈ nodes, ∀ runs, Composed R (visit jump ctx runs n) (visit jump' ctx runs n)) :
    Composed R (visitAll jump ctx parent first nodes) (visitAll jump' ctx parent first nodes) := by
  induction nodes generalizing first with
  | nil => exact .pure ()
  | cons n ns ih =>
    unfold Walk.visitAll
    exact .bind (h n List.mem_cons_self _) fun _ =>
      ih fun m hm => h m (List.mem_cons_of_mem _ hm)

theorem visitBranches_of_visit {parent : Kind} {first : Bool} {nodes : List Node}
    (h : ∀ n ∈ nodes, ∀ runs, Composed R (visit jump ctx runs n) (visit jump' ctx runs n)) :
    Composed R (visitBranches jump ctx parent first nodes)
      (visitBranches jump' ctx parent first nodes) := by
  induction nodes generalizing first with
  | nil => exact .pure ()
  | cons n ns ih =>
    unfold Walk.visitBranches
    exact .bind (.joinTaint (h n List.mem_cons_self _)) fun _ =>
      ih fun m hm => h m (List.mem_cons_of_mem _ hm)

include hjump in
theorem visitCommand_of_visit {first : Bool} {nodes : List Node}
    (h : ∀ n ∈ nodes, ∀ runs, Composed R (visit jump ctx runs n) (visit jump' ctx runs n)) :
    Composed R (visitCommand jump ctx first nodes) (visitCommand jump' ctx first nodes) := by
  induction nodes generalizing first with
  | nil => exact .pure ()
  | cons n ns ih =>
    have rest : Composed R (visitCommand jump ctx false ns) (visitCommand jump' ctx false ns) :=
      ih fun m hm => h m (List.mem_cons_of_mem _ hm)
    have next := Composed.bind (h n List.mem_cons_self (Kind.command.runsChild first)) fun _ => rest
    unfold Walk.visitCommand
    split
    · exact .pure ()
    · refine .bind (.plain (.callee n)) fun name => ?_
      split
      · exact .pure ()
      · refine .bind (.lookup name) fun f => ?_
        split
        · split
          · exact .pure ()
          · exact .bind (.enter name) fun _ => .bind (hjump _) fun _ => rest
        · exact next
    · exact next

include hjump in
theorem visit (runs : Bool) (node : Node) :
    Composed R (visit jump ctx runs node) (visit jump' ctx runs node) := by
  induction node using Node.induction generalizing runs with
  | step node ih =>
    obtain ⟨kind, written, row, column, endColumn, children⟩ := node
    have all : Composed R (visitAll jump ctx kind true children)
        (visitAll jump' ctx kind true children) :=
      .visitAll_of_visit ctx fun n hn runs => ih n hn runs
    have branches : Composed R (visitBranches jump ctx kind true children)
        (visitBranches jump' ctx kind true children) :=
      .visitBranches_of_visit ctx fun n hn runs => ih n hn runs
    unfold Walk.visit
    refine .bind .countVisit fun _ => ?_
    split
    · exact .defineFunction children
    · exact .bind (.command hjump ctx _) fun _ =>
        .visitCommand_of_visit hjump ctx fun n hn runs => ih n hn runs
    · exact .plain (.bind (.opener children) fun _ => .test ctx _ false _)
    · exact .plain (.bind (.opener children) fun _ => .arithmetic ctx _ false _)
    · refine .bind (.plain (.declarePairs ctx children)) fun _ =>
        .bind (.plain (.isLocal children)) fun own => ?_
      split
      · exact .localDeclaration hjump ctx _
      · exact all
    · exact .assignment hjump ctx _
    · exact .plain (.subscript ctx _)
    · exact branches
    · exact branches
    · split
      · exact .plain (.expansionStatement ctx runs _)
      · exact all

include hjump in
theorem visitAll (parent : Kind) (first : Bool) (nodes : List Node) :
    Composed R (visitAll jump ctx parent first nodes) (visitAll jump' ctx parent first nodes) :=
  .visitAll_of_visit ctx fun n _ runs => .visit hjump ctx runs n

end Visits

/-! ### Jumps -/

theorem commandString {parse? : String → Option Node} {visitRoot visitRoot' : Node → Walk Unit}
    {line : Int} (h : ∀ root, Composed R (visitRoot root) (visitRoot' root)) (script : String) :
    Composed R (commandString parse? visitRoot line script)
      (commandString parse? visitRoot' line script) := by
  unfold Walk.commandString
  split
  · exact .pure ()
  · refine .recovering (.bind (.plain (.when (.unmark line))) fun _ => ?_)
      (.plain (.recordSimple line script))
    split
    · exact h _
    · exact .plain (.throw _ (by decide))

/-- Jumps with budgets that differ by `d` are put together alike, down to where
the smaller budget is exhausted. -/
theorem follow (parse? : String → Option Node) {d : Nat}
    (hspent : ∀ jump, R (throw .exhausted) (follow parse? d jump)) (budget : Nat) (jump : Jump) :
    Composed R (follow parse? budget jump) (follow parse? (d + budget) jump) := by
  induction budget generalizing jump with
  | zero => exact .related (hspent jump)
  | succ budget ih =>
    cases jump with
    | body parts ctx => exact .visitAll ih ctx .functionDefinition true parts
    | script script ctx => exact .commandString (fun root => .visit ih ctx false root) script

end Composed

end ShellAudit.Walk
