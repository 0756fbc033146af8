-- SUMMARY: What a walk taints covers every path through the conditionals of a script.
import ShellAudit.Proofs.Pruning

/-!
# Paths through conditionals

A walk visits all children of a conditional and joins what they taint. So what is
tainted at its end covers what is tainted on every path, that is, in the walk of
every tree in which some branches are left out.
-/

namespace ShellAudit.Walk

namespace Covered

variable {J : NameSet → NameSet → Prop} {n' n : Node}

theorem when {p : Prop} [Decidable p] {step' step : Walk Unit}
    (h : p → Covered J step' step anyResult) :
    Covered J (when p step') (when p step) anyResult := by
  unfold Walk.when
  split
  · rename_i hp
    exact h hp
  · exact .pure trivial

/-- The second walk may take a silent step where the first does not. -/
theorem when_of_imp {p' p : Prop} [Decidable p'] [Decidable p] {step' step : Walk Unit}
    (hp : p' → p) (h : p → Covered J step' step anyResult)
    (hself : p → ∀ K, Covered K step step anyResult) :
    Covered J (Walk.when p' step') (Walk.when p step) anyResult := by
  unfold Walk.when
  by_cases hp' : p'
  · rw [if_pos hp', if_pos (hp hp')]
    exact h (hp hp')
  · rw [if_neg hp']
    split
    · rename_i hp
      exact .nothing (hself hp)
    · exact .pure trivial

/-- Two walks that go through lists of nodes, taking one step for each, where the
steps leave taint alone. -/
theorem each {all' all : List Node → Walk Unit} {step' step : Node → Walk Unit} {branches : Bool}
    {ns' ns : List Node} (hns : PrunedAll branches ns' ns)
    (hstep : ∀ n ∈ ns, ∀ n', Pruned n' n → Covered J (step' n') (step n) anyResult)
    (hself : ∀ n ∈ ns, ∀ K, Covered K (step n) (step n) anyResult)
    (hnil' : all' [] = Pure.pure ()) (hnil : all [] = Pure.pure ())
    (hcons' : ∀ n ns, all' (n :: ns) = step' n >>= fun _ => all' ns)
    (hcons : ∀ n ns, all (n :: ns) = step n >>= fun _ => all ns) :
    Covered J (all' ns') (all ns) anyResult := by
  induction ns generalizing ns' with
  | nil =>
    cases hns
    rw [hnil', hnil]
    exact .pure trivial
  | cons n ns ih =>
    have rest {ns' : List Node} (hns : PrunedAll branches ns' ns) :=
      ih hns (fun m hm => hstep m (List.mem_cons_of_mem _ hm)) fun m hm =>
        hself m (List.mem_cons_of_mem _ hm)
    rw [hcons]
    cases hns with
    | keep hn hns =>
      rw [hcons']
      exact .bind (hstep n List.mem_cons_self _ hn) fun _ _ _ => rest hns
    | drop hns => exact .skip (hself n List.mem_cons_self) fun _ => rest hns

/-! ## Records -/

theorem subscript (ctx : Context) (h : n'.text = n.text) :
    Covered J (subscript ctx n') (subscript ctx n) anyResult := by
  unfold Walk.subscript
  exact .bind (.text h) fun _ _ _ =>
    .recorded recordSubscript fun _ _ => ⟨_, rfl, rfl, rfl, rfl⟩

theorem expansion (ctx : Context) (h : n'.text = n.text) :
    Covered J (expansion ctx n') (expansion ctx n) anyResult := by
  unfold Walk.expansion
  refine .bind (.text h) ?_
  rintro _ written ⟨rfl, -⟩
  exact .bind (.when fun _ => .subscript ctx h) fun _ _ _ =>
    .recorded recordUse fun _ _ => ⟨_, rfl, rfl, rfl, rfl⟩

theorem expansionStatement (ctx : Context) (runs : Bool) (h : n'.text = n.text) :
    Covered J (expansionStatement ctx runs n') (expansionStatement ctx runs n) anyResult := by
  have runExpansion : Covered J (runExpansion ctx n') (runExpansion ctx n) anyResult :=
    .bind (.text h) fun _ _ _ =>
      .recorded recordCommand fun _ _ => ⟨_, rfl, rfl, rfl, rfl⟩
  exact .bind (.expansion ctx h) fun _ _ _ => .when fun _ => runExpansion

theorem injectable (ctx : Context) (opener : String) (h : n'.text = n.text)
    (hdot : ∀ text ∈ n.text, '.' ∉ text.toList) :
    Covered J (injectable ctx opener n') (injectable ctx opener n) anyResult := by
  unfold Walk.injectable
  refine .bind (.text h) ?_
  rintro _ written ⟨rfl, hwritten⟩
  exact .bind (.resolve (hdot _ hwritten)) fun _ _ _ =>
    .recorded recordInjectable fun _ _ => ⟨_, rfl, rfl, rfl, rfl⟩

/-! ## Tests and arithmetic -/

/-- A test that is armed after pruning was armed before. -/
theorem armsTest {branches : Bool} {ns' ns : List Node} (h : PrunedAll branches ns' ns) :
    Covered J (armsTest ns') (armsTest ns) fun b a => b = true → a = true := by
  induction ns generalizing ns' with
  | nil =>
    cases h
    exact .pure id
  | cons n ns ih =>
    cases h with
    | keep hn hns =>
      unfold Walk.armsTest
      rw [hn.kind]
      split
      · refine .bind (.text hn.text) ?_
        rintro _ written ⟨rfl, -⟩
        refine .map (ih hns) fun b a hba => ?_
        simp only [Bool.or_eq_true]
        exact Or.imp_right hba
      · exact ih hns
    | drop hns =>
      rw [Walk.armsTest]
      split
      · refine .skip (fun _ => .text rfl) fun written => ?_
        refine (ih hns).map_right fun b a hba hb => ?_
        rw [hba hb, Bool.or_true]
      · exact ih hns

theorem testOwn {ctx : Context} {opener : String} {armed' armed : Bool} (hn : Pruned n' n)
    (hdirect : n.Direct) (harmed : armed' = true → armed = true) :
    Covered J (testOwn ctx opener armed' n') (testOwn ctx opener armed n) anyResult := by
  obtain ⟨-, -, -, hdot, -⟩ := hdirect
  unfold Walk.testOwn
  rw [hn.kind]
  by_cases hkind : n.kind = .variableName
  · have injectable {K} : Covered K _ _ anyResult := .injectable ctx opener hn.text (hdot hkind)
    have expands : Kind.variableName.isExpansion = false := rfl
    cases armed' with
    | true =>
      rw [harmed rfl]
      simpa [hkind] using injectable
    | false =>
      cases armed with
      -- What armed the test has been left out; the record that is missing taints nothing.
      | true => simpa [hkind, expands] using
          nothing fun _ => .injectable ctx opener rfl (hdot hkind)
      | false => simpa [hkind, expands] using .pure trivial
  · simp only [hkind, decide_false, Bool.and_false, Bool.false_eq_true, if_false]
    split
    · exact .expansion ctx hn.text
    · exact .pure trivial

theorem test {ctx : Context} {opener : String} {armed' armed : Bool} (hn : Pruned n' n)
    (hdirect : n.Every Node.Direct) (harmed : armed' = true → armed = true) :
    Covered J (test ctx opener armed' n') (test ctx opener armed n) anyResult := by
  induction n using Node.induction generalizing J n' armed' armed with
  | step n ih =>
    obtain ⟨hown, hchildren⟩ := Node.every_iff.1 hdirect
    have own : Covered J (Walk.testOwn ctx opener armed' n') (Walk.testOwn ctx opener armed n)
        anyResult := .testOwn hn hown harmed
    cases hn with
    | intro hassigned hpruned =>
      unfold Walk.test
      refine .bind own fun _ _ _ => .bind (.armsTest hpruned) fun arms' arms harms => ?_
      have harmed : (armed' || arms') = true → (armed || arms) = true := by
        simp only [Bool.or_eq_true]
        exact Or.imp harmed harms
      exact each hpruned (fun c hc c' hc' => ih c hc hc' (hchildren c hc) harmed)
        (fun c hc _ => ih c hc (.refl c) (hchildren c hc) id) rfl rfl (fun _ _ => rfl)
        fun _ _ => rfl

theorem arithmetic {ctx : Context} {opener : String} {armed' armed : Bool} (hn : Pruned n' n)
    (hdirect : n.Every Node.Direct) (harmed : armed' = true → armed = true) :
    Covered J (arithmetic ctx opener armed' n') (arithmetic ctx opener armed n) anyResult := by
  induction n using Node.induction generalizing J n' armed' armed with
  | step n ih =>
    obtain ⟨⟨-, -, -, hdot, -⟩, hchildren⟩ := Node.every_iff.1 hdirect
    cases hn with
    | @intro kind text row column endColumn children' children hassigned hpruned =>
      unfold Walk.arithmetic
      refine .bind (P := anyResult) ?_ fun _ _ _ => ?_
      · exact .when_of_imp (And.imp_left harmed) (fun h => .injectable ctx opener rfl (hdot h.2))
          fun h _ => .injectable ctx opener rfl (hdot h.2)
      · have harmed : (armed' || children'.any (·.kind.isArithmeticOperator)) = true →
            (armed || children.any (·.kind.isArithmeticOperator)) = true := by
          simp only [Bool.or_eq_true]
          exact Or.imp harmed (hpruned.any_kind Kind.isArithmeticOperator)
        exact each hpruned (fun c hc c' hc' => ih c hc hc' (hchildren c hc) harmed)
          (fun c hc _ => ih c hc (.refl c) (hchildren c hc) id) rfl rfl (fun _ _ => rfl)
          fun _ _ => rfl

/-! ## Declarations -/

theorem variableNamesAll {branches : Bool} {ns' ns : List Node} (hns : PrunedAll branches ns' ns)
    (h : ∀ n ∈ ns, ∀ {K n'}, Pruned n' n →
      Covered K (variableNames n') (variableNames n) anyResult) :
    Covered J (variableNamesAll ns') (variableNamesAll ns) anyResult := by
  induction ns generalizing ns' with
  | nil =>
    cases hns
    exact .pure trivial
  | cons n ns ih =>
    have rest {ns' : List Node} (hns : PrunedAll branches ns' ns) :=
      ih hns fun m hm => h m (List.mem_cons_of_mem _ hm)
    cases hns with
    | keep hn hns =>
      unfold Walk.variableNamesAll
      exact .bind (h n List.mem_cons_self hn) fun _ _ _ => (rest hns).map fun _ _ _ => trivial
    | drop hns =>
      rw [Walk.variableNamesAll]
      exact .skip (fun _ => h n List.mem_cons_self (.refl n)) fun _ =>
        (rest hns).map_right fun _ _ _ => trivial

theorem variableNames (hn : Pruned n' n) :
    Covered J (variableNames n') (variableNames n) anyResult := by
  induction n using Node.induction generalizing J n' with
  | step n ih =>
    have own : Covered J (ownName n') (ownName n) anyResult := by
      unfold Walk.ownName
      rw [hn.kind]
      split
      · exact .bind (.text hn.text) fun _ _ _ => .pure trivial
      · exact .pure trivial
    cases hn with
    | intro hassigned hpruned =>
      unfold Walk.variableNames
      exact .bind own fun _ _ _ =>
        (variableNamesAll hpruned fun c hc _ _ hc' => ih c hc hc').map fun _ _ _ => trivial

theorem declarePairs (ctx : Context) {ns' ns : List Node} (hns : PrunedAll false ns' ns) :
    Covered J (declarePairs ctx ns') (declarePairs ctx ns) anyResult := by
  induction ns generalizing ns' with
  | nil =>
    cases hns
    exact .pure trivial
  | cons n ns ih =>
    cases hns with
    | @keep _ n' _ _ _ hn hns =>
      have declarePair : Covered J (declarePair ctx n') (declarePair ctx n) anyResult := by
        refine .bind (.variableNames hn) fun names' names _ => .silent ?_ ?_
        all_goals
          split
          · exact fun _ => ⟨_, rfl, rfl, rfl, rfl⟩
          · exact .pure
      unfold Walk.declarePairs
      rw [hn.kind]
      exact .bind (.when fun _ => declarePair) fun _ _ _ => ih hns

/-! ## Commands and values -/

theorem draftName (draft : Draft) (hn : Pruned n' n) (hkind : n.kind.isBranching = false) :
    Covered J (draftName draft n') (draftName draft n) (· = ·) := by
  have htext : (n'.children.head?.getD n').text = (n.children.head?.getD n).text := by
    have hchildren := hn.children
    rw [hkind] at hchildren
    generalize n'.children = children', n.children = children at hchildren
    cases hchildren with
    | nil => exact hn.text
    | keep hc _ => exact hc.text
  unfold Walk.draftName
  refine .bind (.text htext) ?_
  rintro _ written ⟨rfl, -⟩
  exact .pure (by rw [hn.column])

theorem draftArgument (draft : Draft) (hn : Pruned n' n) :
    Covered J (draftArgument draft n') (draftArgument draft n) (· = ·) := by
  unfold Walk.draftArgument
  refine .bind (.text hn.text) ?_
  rintro _ written ⟨rfl, -⟩
  split
  · exact .pure rfl
  · exact .pure rfl

/-- The children of a command give the same draft as before pruning; their
assignments are not pruned. -/
theorem draftChildren_of_lastValue {jump : Jump → Walk Unit} {ctx : Context} {ns' ns : List Node}
    (hns : PrunedAll false ns' ns) (hdirect : ∀ n ∈ ns, n.Direct) (draft : Draft)
    (h : ∀ n ∈ ns,
      Covered (· ⊆ ·) (lastValue jump ctx n.children) (lastValue jump ctx n.children) (· = ·)) :
    Covered (· ⊆ ·) (draftChildren jump ctx draft ns') (draftChildren jump ctx draft ns)
      (· = ·) := by
  induction ns generalizing ns' draft with
  | nil =>
    cases hns
    exact .pure rfl
  | cons n ns ih =>
    cases hns with
    | keep hn hns =>
      have rest := fun draft =>
        ih hns (fun m hm => hdirect m (List.mem_cons_of_mem _ hm)) draft fun m hm =>
          h m (List.mem_cons_of_mem _ hm)
      by_cases hassign : n.kind = .variableAssignment
      · obtain rfl := hn.eq_of_assignment hassign
        obtain ⟨-, -, -, -, htarget⟩ := hdirect _ List.mem_cons_self
        have value := h _ List.mem_cons_self
        rw [draftChildren_cons_assignment hassign, draftChildren_cons_assignment hassign]
        refine .bind (.text rfl) ?_
        rintro _ written ⟨rfl, hwritten⟩
        refine .bind (.resolve (by simpa using htarget hassign _ hwritten)) ?_
        rintro _ _ ⟨rfl, rfl⟩
        refine .bind value ?_
        rintro _ _ rfl
        exact .bind (.recorded recordAssignment fun _ _ => ⟨_, rfl, rfl, rfl, rfl⟩)
          fun _ _ _ => .bind (.assignTaint _ _) fun _ _ _ => rest draft
      · by_cases hname : n.kind = .commandName
        · rw [draftChildren_cons_name hname, draftChildren_cons_name (hn.kind.trans hname)]
          refine .bind (.draftName draft hn (by rw [hname]; rfl)) ?_
          rintro draft _ rfl
          exact rest draft
        · rw [draftChildren_cons_other hassign hname,
            draftChildren_cons_other (hn.kind ▸ hassign) (hn.kind ▸ hname), hn.kind]
          split
          · refine .bind (.draftArgument draft hn) ?_
            rintro draft _ rfl
            exact rest draft
          · exact rest draft

theorem readInto (ctx : Context) {arguments : List String} (n' n : Node)
    (h : ∀ argument ∈ arguments, argument.toList.head? ≠ some '-' → '.' ∉ argument.toList) :
    Covered (· ⊆ ·) (readInto ctx n' arguments) (readInto ctx n arguments) anyResult := by
  induction arguments with
  | nil => exact .pure trivial
  | cons argument rest ih =>
    unfold Walk.readInto
    refine .bind (.when fun hvariable => ?_) fun _ _ _ =>
      ih fun argument hmem => h argument (List.mem_cons_of_mem _ hmem)
    refine .bind (.resolve (h argument List.mem_cons_self hvariable)) ?_
    rintro _ _ ⟨rfl, rfl⟩
    exact .bind (.recorded recordAssignment fun _ _ => ⟨_, rfl, rfl, rfl, rfl⟩)
      fun _ _ _ => .taint _

section Values

variable {jump : Jump → Walk Unit} (ctx : Context)

theorem finish {draft : Draft} (hdraft : draft.Direct) (hrow : n'.row = n.row) :
    Covered (· ⊆ ·) (finish jump ctx n' draft) (finish jump ctx n draft) (· = ·) := by
  obtain ⟨hshell, hname, hread⟩ := hdraft
  have hline : n'.lineIn ctx = n.lineIn ctx := by rw [Node.lineIn, Node.lineIn, hrow]
  have runNested (c : Command) (hc : c.name = draft.name) :
      Covered (· ⊆ ·) (runNested jump ctx c) (runNested jump ctx c) anyResult := by
    unfold Walk.runNested
    split
    · rw [if_neg (by simpa [hc] using hshell)]
      exact .pure trivial
    · exact .pure trivial
  have record : Covered (· ⊆ ·) (record jump ctx n' draft) (record jump ctx n draft) (· = ·) := by
    unfold Walk.record
    rw [hline]
    refine .bind (.resolve hname) ?_
    rintro _ _ ⟨rfl, rfl⟩
    refine .bind (.recorded recordCommand fun _ _ => ⟨_, rfl, rfl, rfl, rfl⟩)
      fun _ _ _ => .bind (.when fun hname => .readInto ctx n' n (hread hname)) fun _ _ _ =>
        .bind (runNested _ rfl) fun _ _ _ => .pure rfl
  unfold Walk.finish
  split
  · exact .pure rfl
  · exact record.map fun _ _ h => congrArg some h

/-- The part that a node of a value is by itself; values are not pruned. -/
theorem ownPart {recorded : Walk (Option Command)}
    (h : n.kind = .command → Covered (· ⊆ ·) recorded recorded (· = ·)) :
    Covered (· ⊆ ·) (ownPart ctx recorded n) (ownPart ctx recorded n) (· = ·) := by
  have braced : Covered (· ⊆ ·) (Walk.liftExcept (Walk.braced n (some (frameOf n))))
      (Walk.liftExcept (Walk.braced n (some (frameOf n)))) (· = ·) := by
    cases Walk.braced n (some (frameOf n)) with
    | ok part => exact .pure rfl
    | error fault => exact .throw fault
  unfold Walk.ownPart
  split
  · exact braced.map fun _ _ h => by rw [h]
  · exact (text rfl).map fun _ _ h => by rw [h.1]
  · exact (h ‹_›).map fun _ _ h => by rw [h]
  · exact (subscript ctx rfl).map fun _ _ _ => rfl
  · exact .pure rfl

theorem partsAll {ns : List Node}
    (h : ∀ n ∈ ns, Covered (· ⊆ ·) (parts jump ctx n) (parts jump ctx n) (· = ·)) :
    Covered (· ⊆ ·) (partsAll jump ctx ns) (partsAll jump ctx ns) (· = ·) := by
  induction ns with
  | nil => exact .pure rfl
  | cons n ns ih =>
    unfold Walk.partsAll
    refine .bind (h n List.mem_cons_self) ?_
    rintro _ _ rfl
    exact (ih fun m hm => h m (List.mem_cons_of_mem _ hm)).map fun _ _ h => by rw [h]

theorem lastValue_of_parts {ns : List Node}
    (h : ∀ n ∈ ns, Covered (· ⊆ ·) (parts jump ctx n) (parts jump ctx n) (· = ·)) :
    Covered (· ⊆ ·) (lastValue jump ctx ns) (lastValue jump ctx ns) (· = ·) := by
  induction ns with
  | nil => exact .throw .missingChild
  | cons n ns ih =>
    cases ns with
    | nil =>
      unfold Walk.lastValue
      refine .bind (h n List.mem_cons_self) ?_
      rintro _ _ rfl
      exact (text rfl).map fun _ _ h => by rw [h.1]
    | cons m ms =>
      unfold Walk.lastValue
      exact ih fun k hk => h k (List.mem_cons_of_mem _ hk)

/-- The draft of a command comes out the same after pruning, and is the one that
the children say. -/
theorem draftChildren_draft (hn : Pruned n' n) (hkind : n.kind = .command)
    (hdirect : ∀ c ∈ n.children, c.Direct)
    (h : ∀ c ∈ n.children,
      Covered (· ⊆ ·) (lastValue jump ctx c.children) (lastValue jump ctx c.children) (· = ·)) :
    Covered (· ⊆ ·) (draftChildren jump ctx {} n'.children) (draftChildren jump ctx {} n.children)
      fun b a => b = n.draft ∧ a = n.draft := by
  have hchildren := hn.children
  rw [hkind] at hchildren
  refine ((draftChildren_of_lastValue hchildren hdirect {} h).returning
    (draftChildren_returns jump ctx {} n.children)).weaken ?_
  rintro b a ⟨rfl, ha⟩
  exact ⟨ha, ha⟩

/-- As for every walk of values, the induction carries parts and last values. -/
theorem parts_and_lastValue (hdirect : n.Every Node.Direct) :
    Covered (· ⊆ ·) (parts jump ctx n) (parts jump ctx n) (· = ·) ∧
      Covered (· ⊆ ·) (lastValue jump ctx n.children) (lastValue jump ctx n.children) (· = ·) := by
  induction n using Node.induction with
  | step n ih =>
    obtain ⟨hown, hchildren⟩ := Node.every_iff.1 hdirect
    have below := fun c hc => ih c hc (hchildren c hc)
    refine ⟨?_, .lastValue_of_parts ctx fun c hc => (below c hc).1⟩
    have recorded (hkind : n.kind = .command) : Covered (· ⊆ ·)
        (draftChildren jump ctx {} n.children >>= Walk.finish jump ctx n)
        (draftChildren jump ctx {} n.children >>= Walk.finish jump ctx n) (· = ·) := by
      refine .bind (draftChildren_draft ctx (.refl n) hkind
        (fun c hc => (Node.every_iff.1 (hchildren c hc)).1) fun c hc => (below c hc).2) ?_
      rintro _ _ ⟨rfl, rfl⟩
      exact .finish ctx (hown.2.2.1 hkind) rfl
    obtain ⟨kind, written, row, column, endColumn, children⟩ := n
    unfold Walk.parts
    refine .bind (.ownPart ctx recorded) ?_
    rintro _ _ rfl
    exact (partsAll ctx fun c hc => (below c hc).1).map fun _ _ h => by rw [h]

theorem lastValue {ns : List Node} (hdirect : ∀ n ∈ ns, n.Every Node.Direct) :
    Covered (· ⊆ ·) (lastValue jump ctx ns) (lastValue jump ctx ns) (· = ·) :=
  .lastValue_of_parts ctx fun n hn => (parts_and_lastValue ctx (hdirect n hn)).1

theorem command (hn : Pruned n' n) (hkind : n.kind = .command) (hdirect : n.Every Node.Direct) :
    Covered (· ⊆ ·) (command jump ctx n') (command jump ctx n) (· = ·) := by
  obtain ⟨hown, hchildren⟩ := Node.every_iff.1 hdirect
  refine .bind (draftChildren_draft ctx hn hkind
    (fun c hc => (Node.every_iff.1 (hchildren c hc)).1)
    fun c hc => .lastValue ctx (Node.every_iff.1 (hchildren c hc)).2) ?_
  rintro _ _ ⟨rfl, rfl⟩
  exact .finish ctx (hown.2.2.1 hkind) hn.row

end Values

/-! ## Visits -/

section Visits

variable {jump : Jump → Walk Unit} {ctx : Context} {ns' ns : List Node}

theorem assignment (hkind : n.kind = .variableAssignment) (hdirect : n.Every Node.Direct) :
    Covered (· ⊆ ·) (assignment jump ctx n) (assignment jump ctx n) anyResult := by
  obtain ⟨⟨-, -, -, -, htarget⟩, hchildren⟩ := Node.every_iff.1 hdirect
  unfold Walk.assignment
  refine .bind (.text rfl) ?_
  rintro _ written ⟨rfl, hwritten⟩
  refine .bind (.resolve (by simpa using htarget hkind _ hwritten)) ?_
  rintro _ _ ⟨rfl, rfl⟩
  refine .bind (.when fun _ => .subscript ctx rfl) fun _ _ _ => .bind (.lastValue ctx hchildren) ?_
  rintro _ _ rfl
  exact .bind (.recorded recordAssignment fun _ _ => ⟨_, rfl, rfl, rfl, rfl⟩)
    fun _ _ _ => .assignTaint _ _

theorem countVisit : Covered J countVisit countVisit anyResult :=
  .silent (fun _ => ⟨_, rfl, rfl, rfl, rfl⟩) fun _ => ⟨_, rfl, rfl, rfl, rfl⟩

theorem lookup (name : String) :
    Covered J (lookup name) (lookup name) fun b a => b = none ∧ a = none := by
  have hexec {s : State} (hs : Calm s) : (Walk.lookup name).exec s = (.ok none, s) := by
    have : (Walk.lookup name).exec s = (.ok (s.functions.get? name), s) := rfl
    rw [this, hs.functions]
    rfl
  intro s' s hs a t ht
  rw [hexec hs.calm] at ht
  cases ht
  exact ⟨none, s', hexec hs.calm', ⟨rfl, rfl⟩, hs⟩

theorem opener (hns : PrunedAll false ns' ns) :
    Covered J (opener ns') (opener ns) (· = ·) := by
  cases hns with
  | nil => exact .throw .missingChild
  | keep hn _ => exact .pure (by rw [hn.kind])

theorem isLocal (hns : PrunedAll false ns' ns) (h : ∀ c ∈ ns.head?, c.kind ≠ .localKeyword) :
    Covered J (isLocal ns') (isLocal ns) fun b a => b = false ∧ a = false := by
  cases hns with
  | nil => exact .throw .missingChild
  | keep hn _ =>
    have hkind := h _ rfl
    exact .pure ⟨by simp [hn.kind, hkind], by simp [hkind]⟩

theorem callee (hn : Pruned n' n) (hkind : n.kind.isBranching = false) :
    Covered J (callee n') (callee n) (· = ·) := by
  have hchildren := hn.children
  rw [hkind] at hchildren
  unfold Walk.callee
  generalize n'.children = children', n.children = children at hchildren
  cases hchildren with
  | nil => exact .throw .missingChild
  | keep hc _ => exact (text hc.text).weaken fun _ _ h => h.1

theorem visitAll_of_visit {parent : Kind} {first : Bool} (hns : PrunedAll false ns' ns)
    (h : ∀ n ∈ ns, ∀ n' runs, Pruned n' n →
      Covered (· ⊆ ·) (visit jump ctx runs n') (visit jump ctx runs n) anyResult) :
    Covered (· ⊆ ·) (visitAll jump ctx parent first ns') (visitAll jump ctx parent first ns)
      anyResult := by
  induction ns generalizing ns' first with
  | nil =>
    cases hns
    exact .pure trivial
  | cons n ns ih =>
    cases hns with
    | keep hn hns =>
      unfold Walk.visitAll
      exact .bind (h n List.mem_cons_self _ _ hn) fun _ _ _ =>
        ih hns fun m hm => h m (List.mem_cons_of_mem _ hm)

/-- Branches run no expansion, whichever of them is the first. -/
theorem runsChild_of_isBranching {parent : Kind} (h : parent.isBranching = true) (first : Bool) :
    parent.runsChild first = false := by
  rcases Kind.isBranching_iff.1 h with rfl | rfl <;> rfl

/-- The branches that are visited cover those of them that are left. -/
theorem visitBranches_of_visit {parent : Kind} {first' first : Bool}
    (hparent : parent.isBranching = true) (hns : PrunedAll true ns' ns)
    (h : ∀ n ∈ ns, ∀ n' runs, Pruned n' n →
      Covered (· ⊆ ·) (visit jump ctx runs n') (visit jump ctx runs n) anyResult) :
    Covered (· ⊆ ·) (visitBranches jump ctx parent first' ns')
      (visitBranches jump ctx parent first ns) anyResult := by
  induction ns generalizing ns' first' first with
  | nil =>
    cases hns
    exact .pure trivial
  | cons n ns ih =>
    have below := fun m hm => h m (List.mem_cons_of_mem n hm)
    cases hns with
    | keep hn hns =>
      unfold Walk.visitBranches
      rw [runsChild_of_isBranching hparent, runsChild_of_isBranching hparent]
      exact .bind (.joinTaint (h n List.mem_cons_self _ _ hn)) fun _ _ _ => ih hns below
    | drop hns =>
      rw [Walk.visitBranches]
      exact .skip_branch (h n List.mem_cons_self _ _ (.refl n)) fun _ => ih hns below

/-- The branches that are visited cover those of them that run one after the
other. -/
theorem visitAll_of_branches {parent : Kind} {first' first : Bool}
    (hparent : parent.isBranching = true) (hns : PrunedAll true ns' ns)
    (h : ∀ n ∈ ns, ∀ n' runs, Pruned n' n →
      Covered (· ⊆ ·) (visit jump ctx runs n') (visit jump ctx runs n) anyResult) :
    Covered (· ⊆ ·) (visitAll jump ctx parent first' ns')
      (visitBranches jump ctx parent first ns) anyResult := by
  induction ns generalizing ns' first' first with
  | nil =>
    cases hns
    exact .pure trivial
  | cons n ns ih =>
    have below := fun m hm => h m (List.mem_cons_of_mem n hm)
    rw [Walk.visitBranches, runsChild_of_isBranching hparent]
    cases hns with
    | keep hn hns =>
      rw [Walk.visitAll, runsChild_of_isBranching hparent]
      exact .bind (.branch (h n List.mem_cons_self _ _ hn)) fun _ _ _ => ih hns below
    | drop hns => exact .skip_branch (h n List.mem_cons_self _ _ (.refl n)) fun _ => ih hns below

theorem visitCommand_of_visit {first : Bool} (hns : PrunedAll false ns' ns)
    (h : ∀ n ∈ ns, ∀ n' runs, Pruned n' n →
      Covered (· ⊆ ·) (visit jump ctx runs n') (visit jump ctx runs n) anyResult) :
    Covered (· ⊆ ·) (visitCommand jump ctx first ns') (visitCommand jump ctx first ns)
      anyResult := by
  induction ns generalizing ns' first with
  | nil =>
    cases hns
    exact .pure trivial
  | cons n ns ih =>
    cases hns with
    | @keep _ n' _ ns' _ hn hns =>
      have next : Covered (· ⊆ ·)
          (Walk.visit jump ctx (Kind.command.runsChild first) n' >>= fun _ =>
            Walk.visitCommand jump ctx false ns')
          (Walk.visit jump ctx (Kind.command.runsChild first) n >>= fun _ =>
            Walk.visitCommand jump ctx false ns)
          anyResult :=
        .bind (h n List.mem_cons_self _ _ hn) fun _ _ _ =>
          ih hns fun m hm => h m (List.mem_cons_of_mem _ hm)
      unfold Walk.visitCommand
      rw [hn.kind]
      split
      · exact .pure trivial
      · rename_i hkind
        refine .bind (.callee hn (by rw [hkind]; rfl)) ?_
        rintro name _ rfl
        split
        · exact .pure trivial
        -- No function is defined, so the walk goes on behind the name.
        · refine .bind (.lookup name) ?_
          rintro _ _ ⟨rfl, rfl⟩
          exact next
      · exact next

/-- The walk of a tree covers the walk of every tree that is pruned from it. -/
theorem visit {runs : Bool} (hn : Pruned n' n) (hdirect : n.Every Node.Direct) :
    Covered (· ⊆ ·) (visit jump ctx runs n') (visit jump ctx runs n) anyResult := by
  induction n using Node.induction generalizing n' runs with
  | step n ih =>
    obtain ⟨⟨hdefinition, hlocal, -⟩, hchildren⟩ := Node.every_iff.1 hdirect
    have below (c : Node) (hc : c ∈ n.children) (c' : Node) (runs : Bool) (hc' : Pruned c' c) :
        Covered (· ⊆ ·) (Walk.visit jump ctx runs c') (Walk.visit jump ctx runs c) anyResult :=
      ih c hc hc' (hchildren c hc)
    -- Outside of conditionals no child is missing, so the children are walked in step.
    have plain (hkind : n.kind.isBranching = false) : PrunedAll false n'.children n.children :=
      hkind ▸ hn.children
    have all (hkind : n.kind.isBranching = false) : Covered (· ⊆ ·)
        (Walk.visitAll jump ctx n.kind true n'.children)
        (Walk.visitAll jump ctx n.kind true n.children) anyResult :=
      .visitAll_of_visit (plain hkind) below
    have branches (hkind : n.kind.isBranching = true) : Covered (· ⊆ ·)
        (Walk.visitBranches jump ctx n.kind true n'.children)
        (Walk.visitBranches jump ctx n.kind true n.children) anyResult :=
      .visitBranches_of_visit hkind (hkind ▸ hn.children) below
    have hn' := hn
    cases hn with
    | @intro kind text row column endColumn children' children hassigned hpruned =>
      unfold Walk.visit
      refine .bind .countVisit fun _ _ _ => ?_
      split
      · exact absurd rfl hdefinition
      · exact .bind (.command ctx hn' rfl hdirect) fun _ _ _ =>
          .visitCommand_of_visit (plain rfl) below
      · refine .bind (.opener (plain rfl)) ?_
        rintro opening _ rfl
        exact .test hn' hdirect id
      · refine .bind (.opener (plain rfl)) ?_
        rintro opening _ rfl
        exact .arithmetic hn' hdirect id
      · refine .bind (.declarePairs ctx (plain rfl)) fun _ _ _ =>
          .bind (.isLocal (plain rfl) (hlocal rfl)) ?_
        rintro _ _ ⟨rfl, rfl⟩
        exact all rfl
      · obtain rfl := hassigned rfl
        exact .assignment rfl hdirect
      · exact .subscript ctx rfl
      · exact branches rfl
      · exact branches rfl
      · rename_i hif hcase
        split
        · exact .expansionStatement ctx runs rfl
        · exact all (Bool.eq_false_iff.2 fun h => (Kind.isBranching_iff.1 h).elim hif hcase)

/-- The walk of a conditional covers that some of its children run one after the
other. -/
theorem path {runs : Bool} {path : List Node}
    (hkind : n.kind = .ifStatement ∨ n.kind = .caseStatement) (hdirect : n.Every Node.Direct)
    (hpath : path.Sublist n.children) :
    Covered (· ⊆ ·) (Walk.visitAll jump ctx n.kind true path) (Walk.visit jump ctx runs n)
      anyResult := by
  have hvisit : Walk.visit jump ctx runs n =
      Walk.countVisit >>= fun _ => Walk.visitBranches jump ctx n.kind true n.children := by
    obtain ⟨kind, text, row, column, endColumn, children⟩ := n
    rcases hkind with hkind | hkind <;> cases hkind <;> rw [Walk.visit]
  rw [hvisit]
  refine .skip (fun _ => .countVisit) fun _ =>
    .visitAll_of_branches (Kind.isBranching_iff.2 hkind) (.of_sublist hpath)
      fun c hc c' runs hc' => ?_
  exact .visit hc' ((Node.every_iff.1 hdirect).2 c hc)

end Visits

end Covered

/-! ## What is tainted at the end -/

/-- The walk comes to its end, and then only names of the given set are tainted. -/
def EndsWithin (walk : Walk Unit) (s : State) (tainted : NameSet) : Prop :=
  (walk.exec s).1 = .ok () ∧ (walk.exec s).2.tainted ⊆ tainted

theorem Covered.endsWithin {walk' walk : Walk Unit} (h : Covered (· ⊆ ·) walk' walk anyResult)
    {s : State} (hcalm : Calm s) {tainted' : NameSet} (htainted : tainted' ⊆ s.tainted)
    (hok : (walk.exec s).1 = .ok ()) :
    EndsWithin walk' { s with tainted := tainted' } (walk.exec s).2.tainted := by
  rcases hexec : walk.exec s with ⟨fault | _, t⟩ <;> rw [hexec] at hok <;> cases hok
  obtain ⟨_, t', hexec', -, hpaired⟩ :=
    h { s with tainted := tainted' } s ⟨⟨hcalm.functions, hcalm.scope⟩, hcalm, htainted⟩ () t hexec
  refine ⟨?_, ?_⟩
  · rw [hexec']
  · rw [hexec']
    exact hpaired.tainted

/-- What a walk taints covers every path through the conditionals of a tree: if
it comes to its end, so does the walk of the tree without some of their children,
with no other names tainted. Where the tree is a conditional itself, this holds of
any of its children that run one after the other. -/
theorem visit_covers_paths (jump : Jump → Walk Unit) (ctx : Context) (runs : Bool) {n n' : Node}
    (hdirect : n.Every Node.Direct) (hpruned : Pruned n' n) {s : State}
    (hfunctions : s.functions = []) (hscope : ∀ name ∈ s.scope, '.' ∉ name.toList)
    {tainted' : NameSet}
    (htainted : tainted' ⊆ s.tainted) (hok : ((visit jump ctx runs n).exec s).1 = .ok ()) :
    let after := ((visit jump ctx runs n).exec s).2.tainted
    EndsWithin (visit jump ctx runs n') { s with tainted := tainted' } after ∧
      ∀ path : List Node, n.kind = .ifStatement ∨ n.kind = .caseStatement →
        path.Sublist n.children →
          EndsWithin (visitAll jump ctx n.kind true path) { s with tainted := tainted' } after := by
  have hcalm : Calm s := ⟨hfunctions, hscope⟩
  refine ⟨(Covered.visit hpruned hdirect).endsWithin hcalm htainted hok, fun path hkind hpath => ?_⟩
  exact (Covered.path hkind hdirect hpath).endsWithin hcalm htainted hok

/-- The conditional `if read x; then y=$x; x=1; fi`, without its keywords. -/
def reading : Node :=
  { kind := .ifStatement, text := some "if read x; then y=$x; x=1; fi"
    row := 0, column := 0, endColumn := 29
    children :=
      [⟨.command, some "read x", 0, 3, 9,
          [⟨.commandName, some "read", 0, 3, 7, [⟨.word, some "read", 0, 3, 7, []⟩]⟩,
            ⟨.word, some "x", 0, 8, 9, []⟩]⟩,
        ⟨.variableAssignment, some "y=$x", 0, 16, 20,
          [⟨.variableName, some "y", 0, 16, 17, []⟩, ⟨.simpleExpansion, some "$x", 0, 18, 20, []⟩]⟩,
        ⟨.variableAssignment, some "x=1", 0, 22, 25,
          [⟨.variableName, some "x", 0, 22, 23, []⟩, ⟨.number, some "1", 0, 24, 25, []⟩]⟩] }

theorem visit_covers_paths_reading :
    let jump : Jump → Walk Unit := fun _ => throw .exhausted
    let after := ((visit jump {} false reading).exec {}).2.tainted
    after.names = ["x", "y"] ∧
      EndsWithin (visit jump {} false { reading with children := reading.children.take 1 }) {}
        after ∧
      EndsWithin (visitAll jump {} .ifStatement true (reading.children.drop 1)) {} after := by
  intro jump after
  have hdirect : reading.Every Node.Direct := by decide
  have hpruned : Pruned { reading with children := reading.children.take 1 } reading :=
    .intro nofun (.of_sublist (List.take_sublist 1 reading.children))
  have hscope (name : String) (h : name ∈ ({} : State).scope) : '.' ∉ name.toList :=
    absurd h (NameSet.not_mem_empty name)
  have hok : ((visit jump {} false reading).exec {}).1 = .ok () := rfl
  obtain ⟨hskipped, hpath⟩ :=
    visit_covers_paths jump {} false hdirect hpruned rfl hscope (NameSet.Subset.refl _) hok
  exact ⟨by decide, hskipped, hpath _ (.inl rfl) (List.drop_sublist 1 reading.children)⟩

end ShellAudit.Walk
