-- SUMMARY: What each part of a walk spends, down to the jumps it makes.
import ShellAudit.Proofs.Spending

/-!
# The cost of a walk

Every part of a walk does with the cost of the nodes that it walks. The parts
that jump are given a unit more and give it back: it is what the next level of
jumps runs on.
-/

namespace ShellAudit.Walk

variable {parse? : String → Option Node} {level : String → Nat} {b k : Nat}

/-- A way of jumping that does with the cost of the place it goes to. -/
structure Affords (parse? : String → Option Node) (level : String → Nat) (b : Nat)
    (jump : Jump → Walk Unit) : Prop where
  body : ∀ (k : Nat) (parts : List Node) (ctx : Context), (∀ n ∈ parts, Nests level k n) →
    Spends parse? level b (Node.costAll (scriptCost parse? k) parts + 1) (jump (.body parts ctx))
      fun _ => 1
  script : ∀ (k : Nat) (script : String) (ctx : Context), level script < k →
    Spends parse? level b (scriptCost parse? k script + 1) (jump (.script script ctx)) fun _ => 1

section

variable {jump : Jump → Walk Unit} (hjump : Affords parse? level b jump) (ctx : Context)

/-! ## Values and commands -/

include hjump in
theorem spends_runNested {c : Command} (hscript : ∀ s ∈ scriptArgument? c.arguments, level s < k) :
    Spends parse? level b ((scriptArgument? c.arguments).elim 0 (scriptCost parse? k) + 1)
      (runNested jump ctx c) fun _ => 1 := by
  unfold runNested
  split
  · rename_i script heq
    rw [heq]
    split
    · exact hjump.script k script _ (hscript script heq)
    · exact (Spends.pure (fun _ => 1) ()).adjust (by omega) (by omega)
  · rename_i heq
    rw [heq]
    exact (Spends.pure (fun _ => 1) ()).adjust (by omega) (by omega)

include hjump in
theorem spends_finish (node : Node) {draft : Draft}
    (hscript : ∀ s ∈ scriptArgument? draft.arguments, level s < k) :
    Spends parse? level b ((scriptArgument? draft.arguments).elim 0 (scriptCost parse? k) + 1)
      (finish jump ctx node draft) fun _ => 1 := by
  unfold finish
  split
  · exact (Spends.pure (fun _ => 1) none).adjust (by omega) (by omega)
  · refine .seq (q := fun _ => 1) ?_ fun c => .pure (fun _ => 1) _
    unfold record
    refine .seq (Plain.resolve _).spends fun name => ?_
    refine .seq (Plain.recordCommand _).spends fun _ => ?_
    refine .seq (Plain.when (.readInto ctx node _)).spends fun _ => ?_
    exact .seq (spends_runNested hjump ctx (c := ⟨name, draft.arguments, _, _⟩) hscript) fun _ =>
      .pure (fun _ => 1) _

theorem spends_partsAll {nodes : List Node}
    (h : ∀ n ∈ nodes,
      Spends parse? level b (n.cost (scriptCost parse? k) + 1) (parts jump ctx n) fun _ => 1) :
    Spends parse? level b (Node.costAll (scriptCost parse? k) nodes + 1) (partsAll jump ctx nodes)
      fun _ => 1 := by
  induction nodes with
  | nil => exact .pure (fun _ => 1) []
  | cons n ns ih =>
    unfold partsAll
    rw [Node.costAll]
    refine .seq (q := fun _ => Node.costAll (scriptCost parse? k) ns + 1)
      ((h n List.mem_cons_self).adjust (by omega) (by omega)) fun _ => ?_
    exact .seq (ih fun m hm => h m (List.mem_cons_of_mem _ hm)) fun _ => .pure (fun _ => 1) _

theorem spends_lastValue_of_parts {nodes : List Node}
    (h : ∀ n ∈ nodes,
      Spends parse? level b (n.cost (scriptCost parse? k) + 1) (parts jump ctx n) fun _ => 1) :
    Spends parse? level b (Node.costAll (scriptCost parse? k) nodes + 1) (lastValue jump ctx nodes)
      fun _ => 1 := by
  induction nodes with
  | nil => exact .throw (by decide) _
  | cons n ns ih =>
    rw [Node.costAll]
    cases ns with
    | nil =>
      unfold lastValue
      refine .seq (q := fun _ => 1) ((h n List.mem_cons_self).adjust (by omega) (by omega))
        fun _ => ?_
      exact .seq (Plain.text n).spends fun _ => .pure (fun _ => 1) _
    | cons m ms =>
      unfold lastValue
      exact (ih fun k hk => h k (List.mem_cons_of_mem _ hk)).adjust (by omega) (by omega)

theorem spends_draftChildren_of_lastValue {nodes : List Node} (draft : Draft)
    (h : ∀ n ∈ nodes, Spends parse? level b (Node.costAll (scriptCost parse? k) n.children + 1)
      (lastValue jump ctx n.children) fun _ => 1) :
    Spends parse? level b (Node.costAll (scriptCost parse? k) nodes + 1)
      (draftChildren jump ctx draft nodes) fun _ => 1 := by
  induction nodes generalizing draft with
  | nil => exact .pure (fun _ => 1) draft
  | cons n ns ih =>
    obtain ⟨kind, written, row, column, endColumn, children⟩ := n
    have value := h _ List.mem_cons_self
    have rest := fun draft => ih draft fun m hm => h m (List.mem_cons_of_mem _ hm)
    have hcost :=
      Node.cost_eq (scriptCost parse? k) ⟨kind, written, row, column, endColumn, children⟩
    simp only at hcost value
    rw [Node.costAll]
    -- Only the value of an assignment costs anything; it is part of the cost of its node.
    have skip (draft : Draft) := (rest draft).adjust
      (c := Node.cost (scriptCost parse? k) ⟨kind, written, row, column, endColumn, children⟩ +
        Node.costAll (scriptCost parse? k) ns + 1)
      (d := fun _ => 1) (by omega) (by omega)
    unfold draftChildren
    split
    · refine .seq (Plain.text _).spends fun _ => .seq (Plain.resolve _).spends fun _ => ?_
      refine .seq (q := fun _ => Node.costAll (scriptCost parse? k) ns + 1)
        (value.adjust (by omega) (by omega)) fun _ => ?_
      refine .seq (Plain.recordAssignment _).spends fun _ => ?_
      exact .seq (Plain.assignTaint _ _).spends fun _ => rest draft
    · exact .seq (Plain.draftName draft _).spends fun draft => skip draft
    · split
      · exact .seq (Plain.draftArgument draft _).spends fun draft => skip draft
      · exact skip draft

include hjump in
/-- A command is read and recorded: its own script is paid for apart from its children. -/
theorem spends_record_of_lastValue {n : Node} (hkind : n.kind = .command) (hn : Nests level k n)
    (h : ∀ c ∈ n.children, Spends parse? level b (Node.costAll (scriptCost parse? k) c.children + 1)
      (lastValue jump ctx c.children) fun _ => 1) :
    Spends parse? level b
      (n.script?.elim 0 (scriptCost parse? k) + Node.costAll (scriptCost parse? k) n.children + 1)
      (draftChildren jump ctx {} n.children >>= fun draft => finish jump ctx n draft)
      fun _ => 1 := by
  have hscript : n.script? = scriptArgument? (Draft.read {} n.children).arguments := if_pos hkind
  refine .bind
    (q := fun _ =>
      (scriptArgument? (Draft.read {} n.children).arguments).elim 0 (scriptCost parse? k) + 1)
    ?_ (draftChildren_returns jump ctx {} n.children) fun draft hdraft => ?_
  · rw [hscript]
    exact (spends_draftChildren_of_lastValue ctx {} h).adjust (by omega) (by omega)
  · subst hdraft
    exact spends_finish hjump ctx n fun s hs => hn.script (hscript.trans hs)

include hjump in
theorem spends_parts_and_lastValue {n : Node} (hn : Nests level k n) :
    Spends parse? level b (n.cost (scriptCost parse? k) + 1) (parts jump ctx n) (fun _ => 1) ∧
      Spends parse? level b (Node.costAll (scriptCost parse? k) n.children + 1)
        (lastValue jump ctx n.children) fun _ => 1 := by
  induction n using Node.induction with
  | step n ih =>
    obtain ⟨kind, written, row, column, endColumn, children⟩ := n
    have hparts := fun c hc => (ih c hc (hn.child hc)).1
    refine ⟨?_, spends_lastValue_of_parts ctx hparts⟩
    have all := spends_partsAll ctx hparts
    have hcost :=
      Node.cost_eq (scriptCost parse? k) ⟨kind, written, row, column, endColumn, children⟩
    simp only at hcost
    rw [hcost]
    unfold parts
    refine .seq (q := fun _ => Node.costAll (scriptCost parse? k) children + 1) ?_ fun own =>
      .seq all fun _ => .pure (fun _ => 1) _
    have afford {own : Walk (List Part)} (hown : Plain own) : Spends parse? level b
        (2 + (Node.script? ⟨kind, written, row, column, endColumn, children⟩).elim 0
          (scriptCost parse? k) + 2 * Node.costAll (scriptCost parse? k) children + 1) own
        fun _ => Node.costAll (scriptCost parse? k) children + 1 :=
      hown.spends.adjust (Nat.le_refl _) (by omega)
    unfold ownPart
    split
    · exact afford (.bind (.braced _ _) fun _ => .pure _)
    · exact afford (.bind (.text _) fun _ => .pure _)
    · rename_i hkind
      have record := spends_record_of_lastValue hjump ctx hkind hn fun c hc =>
        (ih c hc (hn.child hc)).2
      simp only at record
      exact .seq (record.adjust (by omega) (by omega)) fun _ => .pure (fun _ => _) _
    · exact afford (.bind (.subscript ctx _) fun _ => .pure _)
    · exact afford (.pure [])

include hjump in
theorem spends_lastValue {nodes : List Node} (h : ∀ n ∈ nodes, Nests level k n) :
    Spends parse? level b (Node.costAll (scriptCost parse? k) nodes + 1) (lastValue jump ctx nodes)
      fun _ => 1 :=
  spends_lastValue_of_parts ctx fun n hn => (spends_parts_and_lastValue hjump ctx (h n hn)).1

include hjump in
theorem spends_command {n : Node} (hkind : n.kind = .command) (hn : Nests level k n) :
    Spends parse? level b
      (n.script?.elim 0 (scriptCost parse? k) + Node.costAll (scriptCost parse? k) n.children + 1)
      (command jump ctx n) fun _ => 1 :=
  spends_record_of_lastValue hjump ctx hkind hn fun _ hc =>
    spends_lastValue hjump ctx fun _ hm => (hn.child hc).child hm

/-! ## Visits -/

theorem spends_defineFunction {children : List Node} (h : ∀ n ∈ children, Nests level k n) :
    Spends parse? level b (Node.costAll (scriptCost parse? k) children + 1)
      (defineFunction children) fun _ => 1 := by
  unfold defineFunction
  split
  · exact .throw (by decide) _
  · refine .seq (Plain.text _).spends fun name => ?_
    split
    · exact .throw (by decide) _
    · exact .define name h

include hjump in
theorem spends_declareLocals (declaration : Node) (locals : NameSet) {nodes : List Node}
    (h : ∀ n ∈ nodes, Nests level k n) :
    Spends parse? level b (Node.costAll (scriptCost parse? k) nodes + 1)
      (declareLocals jump ctx declaration locals nodes) fun _ => 1 := by
  induction nodes generalizing locals with
  | nil => exact .pure (fun _ => 1) locals
  | cons n ns ih =>
    have rest := fun locals => ih locals fun m hm => h m (List.mem_cons_of_mem _ hm)
    have value := spends_lastValue hjump ctx fun m hm => (h n List.mem_cons_self).child hm
    have hcost := n.cost_eq (scriptCost parse? k)
    rw [Node.costAll]
    unfold declareLocals
    split
    · refine .seq (Plain.text n).spends fun _ => ?_
      refine .seq (q := fun _ => Node.costAll (scriptCost parse? k) ns + 1)
        (value.adjust (by omega) (by omega)) fun _ => ?_
      refine .seq (Plain.assignTaint _ _).spends fun _ => ?_
      exact .seq (Plain.declareLocal locals _).spends fun locals => rest locals
    · refine .seq (Plain.firstCharacter declaration).spends fun _ => ?_
      refine .seq (Plain.declareLocal locals _).spends fun locals => ?_
      exact (rest locals).adjust (by omega) (by omega)
    · exact (rest locals).adjust (by omega) (by omega)

include hjump in
theorem spends_assignment {n : Node} (hn : Nests level k n) :
    Spends parse? level b (Node.costAll (scriptCost parse? k) n.children + 1)
      (assignment jump ctx n) fun _ => 1 := by
  unfold assignment
  refine .seq (Plain.text n).spends fun _ => .seq (Plain.resolve _).spends fun _ => ?_
  refine .seq (Plain.when (.subscript ctx n)).spends fun _ => ?_
  refine .seq (spends_lastValue hjump ctx fun m hm => hn.child hm) fun _ => ?_
  exact .seq (Plain.recordAssignment _).spends fun _ => (Plain.assignTaint _ _).spends

theorem spends_visitAll_of_visit {parent : Kind} {first : Bool} {nodes : List Node}
    (h : ∀ n ∈ nodes, ∀ runs,
      Spends parse? level b (n.cost (scriptCost parse? k)) (visit jump ctx runs n) fun _ => 0) :
    Spends parse? level b (Node.costAll (scriptCost parse? k) nodes)
      (visitAll jump ctx parent first nodes) fun _ => 0 := by
  induction nodes generalizing first with
  | nil => exact .pure (fun _ => 0) ()
  | cons n ns ih =>
    rw [Node.costAll]
    unfold visitAll
    refine .seq (q := fun _ => Node.costAll (scriptCost parse? k) ns)
      ((h n List.mem_cons_self _).adjust (by omega) (by omega)) fun _ => ?_
    exact ih fun m hm => h m (List.mem_cons_of_mem _ hm)

theorem spends_visitBranches_of_visit {parent : Kind} {first : Bool} {nodes : List Node}
    (h : ∀ n ∈ nodes, ∀ runs,
      Spends parse? level b (n.cost (scriptCost parse? k)) (visit jump ctx runs n) fun _ => 0) :
    Spends parse? level b (Node.costAll (scriptCost parse? k) nodes)
      (visitBranches jump ctx parent first nodes) fun _ => 0 := by
  induction nodes generalizing first with
  | nil => exact .pure (fun _ => 0) ()
  | cons n ns ih =>
    rw [Node.costAll]
    unfold visitBranches
    refine .seq (q := fun _ => Node.costAll (scriptCost parse? k) ns)
      (.joinTaint ((h n List.mem_cons_self _).adjust (by omega) (by omega))) fun _ => ?_
    exact ih fun m hm => h m (List.mem_cons_of_mem _ hm)

include hjump in
theorem spends_visitCommand_of_visit {first : Bool} {nodes : List Node}
    (h : ∀ n ∈ nodes, ∀ runs,
      Spends parse? level b (n.cost (scriptCost parse? k)) (visit jump ctx runs n) fun _ => 0) :
    Spends parse? level b (Node.costAll (scriptCost parse? k) nodes + 1)
      (visitCommand jump ctx first nodes) fun _ => 1 := by
  induction nodes generalizing first with
  | nil => exact .pure (fun _ => 1) ()
  | cons n ns ih =>
    have rest : Spends parse? level b (Node.costAll (scriptCost parse? k) ns + 1)
        (visitCommand jump ctx false ns) fun _ => 1 :=
      ih fun m hm => h m (List.mem_cons_of_mem _ hm)
    have next : Spends parse? level b (Node.costAll (scriptCost parse? k) (n :: ns) + 1)
        (visit jump ctx (Kind.command.runsChild first) n >>= fun _ =>
          visitCommand jump ctx false ns)
        fun _ => 1 := by
      rw [Node.costAll]
      refine .seq (q := fun _ => Node.costAll (scriptCost parse? k) ns + 1) ?_ fun _ => rest
      exact (h n List.mem_cons_self _).adjust (by omega) (by omega)
    have stop : Spends parse? level b (Node.costAll (scriptCost parse? k) (n :: ns) + 1)
        (pure () : Walk Unit) fun _ => 1 :=
      (Spends.pure (fun _ => 1) ()).adjust (by omega) (by omega)
    unfold visitCommand
    split
    · exact stop
    · refine .seq (Plain.callee n).spends fun name => ?_
      split
      · exact stop
      · refine .call name next (fun f hf => ?_) fun f k' hf hbody => ?_
        · simp only [hf, if_true]
          exact stop
        · simp only [hf, Bool.false_eq_true, if_false]
          -- The function pays for its body, so the cost of this node is left for its jump.
          refine ⟨_, rfl, ?_⟩
          rw [Node.costAll]
          refine .seq (q := fun _ => Node.costAll (scriptCost parse? k) ns + 1) ?_ fun _ => rest
          exact (hjump.body k' f.body _ hbody).adjust (by omega) (by omega)
    · exact next

include hjump in
/-- A visit does with the cost of its node: one unit is its own visit, and one is
what its jumps run on. -/
theorem spends_visit (runs : Bool) {n : Node} (hn : Nests level k n) :
    Spends parse? level b (n.cost (scriptCost parse? k)) (visit jump ctx runs n) fun _ => 0 := by
  induction n using Node.induction generalizing runs with
  | step n ih =>
    obtain ⟨kind, written, row, column, endColumn, children⟩ := n
    have below (c : Node) (hc : c ∈ children) : Nests level k c := hn.child hc
    have visits (c : Node) (hc : c ∈ children) (runs : Bool) := ih c hc runs (below c hc)
    have hcost :=
      Node.cost_eq (scriptCost parse? k) ⟨kind, written, row, column, endColumn, children⟩
    simp only at hcost
    generalize hC : Node.costAll (scriptCost parse? k) children = C at hcost
    generalize hS : (Node.script? ⟨kind, written, row, column, endColumn, children⟩).elim 0
      (scriptCost parse? k) = S at hcost
    have all : Spends parse? level b (1 + S + 2 * C) (visitAll jump ctx kind true children)
        fun _ => 0 :=
      (hC ▸ spends_visitAll_of_visit ctx visits).adjust (by omega) (by omega)
    have branches : Spends parse? level b (1 + S + 2 * C)
        (visitBranches jump ctx kind true children) fun _ => 0 :=
      (hC ▸ spends_visitBranches_of_visit ctx visits).adjust (by omega) (by omega)
    have plain {walk : Walk Unit} (hwalk : Plain walk) :
        Spends parse? level b (1 + S + 2 * C) walk fun _ => 0 :=
      hwalk.spends.adjust (Nat.le_refl _) (by omega)
    rw [hcost]
    unfold visit
    refine .seq (q := fun _ => 1 + S + 2 * C)
      ((Spends.countVisit (p := 1 + S + 2 * C)).adjust (by omega) (by omega)) fun _ => ?_
    split
    · exact (hC ▸ spends_defineFunction below).adjust (by omega) (by omega)
    · have record := spends_command hjump ctx rfl hn
      simp only [hC, hS] at record
      refine .seq (q := fun _ => C + 1) (record.adjust (by omega) (by omega)) fun _ => ?_
      exact (hC ▸ spends_visitCommand_of_visit hjump ctx visits).adjust (by omega) (by omega)
    · exact plain (.bind (.opener children) fun _ => .test ctx _ false _)
    · exact plain (.bind (.opener children) fun _ => .arithmetic ctx _ false _)
    · refine .seq (Plain.declarePairs ctx children).spends fun _ => ?_
      refine .seq (Plain.isLocal children).spends fun isLocal => ?_
      split
      · refine .seq (q := fun _ => 1) ?_ fun locals =>
          (Plain.retractAll locals.names).spends.adjust (Nat.le_refl _) (by omega)
        exact (hC ▸ spends_declareLocals hjump ctx _ ∅ below).adjust (by omega) (by omega)
      · exact all
    · have assigned := spends_assignment hjump ctx hn
      simp only [hC] at assigned
      exact assigned.adjust (by omega) (by omega)
    · exact plain (.subscript ctx _)
    · exact branches
    · exact branches
    · split
      · exact plain (.expansionStatement ctx runs _)
      · exact all

end

/-! ## Jumps -/

theorem spends_commandString {visitRoot : Node → Walk Unit} (line : Int) (script : String)
    (h : ∀ root, parse? (String.ofList (unquote script.toList)) = some root →
      Spends parse? level b (root.cost (scriptCost parse? k)) (visitRoot root) fun _ => 0) :
    Spends parse? level b (scriptCost parse? (k + 1) script)
      (commandString parse? visitRoot line script) fun _ => 0 := by
  unfold commandString
  split
  · exact (Spends.pure (fun _ => 0) ()).adjust (Nat.zero_le _) (by omega)
  · refine .recovering (q := fun _ => 0) ?_ (Plain.recordSimple line script).spends
    refine .seq (Plain.when (.unmark line)).spends fun _ => ?_
    rw [scriptCost]
    cases hroot : parse? (String.ofList (unquote script.toList)) with
    | some root => exact h root hroot
    | none => exact .throw (by decide) _

/-- Jumps are affordable with any budget, as long as a string has a higher level
than the strings in its tree. -/
theorem follow_affords
    (hlevel : ∀ script root, parse? (String.ofList (unquote script.toList)) = some root →
      Nests level (level script) root)
    (b : Nat) : Affords parse? level b (follow parse? b) := by
  induction b with
  | zero =>
    constructor
    -- A jump is asked for with a unit in hand, which a budget of zero does not cover.
    · intro k parts ctx _ s h _ hb
      omega
    · intro k script ctx _ s h _ hb
      omega
  | succ b ih =>
    constructor
    · intro k parts ctx hparts
      exact (spends_visitAll_of_visit ctx fun n hn runs =>
        spends_visit ih ctx runs (hparts n hn)).lift
    · intro k script ctx hk
      cases k with
      | zero => omega
      | succ k =>
        refine (spends_commandString ctx.line script fun root hroot => ?_).lift
        refine spends_visit ih ctx false ((hlevel script root hroot).imp fun n hn s hs => ?_)
        have := hn s hs
        omega

end ShellAudit.Walk
