-- SUMMARY: The variables of a test that are evaluated are those below a node with an arming operator.
import ShellAudit.Proofs.WalkedOnce

/-!
# Names that are evaluated

An operator among the children of a node arms everything below the node. The walk hands this
down as a flag, which is set before the children are walked, so that what stands left of the
operator is armed as well. `visit_records_armed` says what comes of it without the flag: a
variable name is recorded exactly if some node above it, within the expression, has such an
operator for a child.
-/

namespace ShellAudit

/-! ## Nodes with the nodes above them -/

namespace Node

/-- The node stands in a tree, and `above` are the nodes that it stands below there, its parent
first and the root last. -/
inductive Lineage (root : Node) : List Node → Node → Prop
  | root : Lineage root [] root
  | child {above : List Node} {m c : Node} :
      Lineage root above m → c ∈ m.children → Lineage root (m :: above) c

mutual

/-- The nodes of a tree in the order of the text, each with the nodes above it. The root stands
below `above`. -/
def lineages (above : List Node) : Node → List (List Node × Node)
  | node@⟨_, _, _, _, _, children⟩ => (above, node) :: lineagesOf (node :: above) children

def lineagesOf (above : List Node) : List Node → List (List Node × Node)
  | [] => []
  | n :: ns => lineages above n ++ lineagesOf above ns

end

theorem lineages_eq (above : List Node) (n : Node) :
    n.lineages above = (above, n) :: lineagesOf (n :: above) n.children := by
  obtain ⟨kind, text, row, column, endColumn, children⟩ := n
  rw [lineages]

theorem mem_lineagesOf {l : List Node × Node} {above ns : List Node} :
    l ∈ lineagesOf above ns ↔ ∃ n ∈ ns, l ∈ n.lineages above := by
  induction ns with
  | nil => simp [lineagesOf]
  | cons n ns ih => rw [lineagesOf, List.mem_append, ih, List.exists_mem_cons_iff]

mutual

/-- Every node is listed once, in the order of the text. -/
theorem map_snd_lineages (above : List Node) : (n : Node) →
    (n.lineages above).map Prod.snd = n.all
  | ⟨_, _, _, _, _, children⟩ => by
    rw [lineages, all, List.map_cons, map_snd_lineagesOf _ children]

theorem map_snd_lineagesOf (above : List Node) : (ns : List Node) →
    (lineagesOf above ns).map Prod.snd = allOf ns
  | [] => rfl
  | n :: ns => by
    rw [lineagesOf, allOf, List.map_append, map_snd_lineages above n, map_snd_lineagesOf above ns]

end

theorem Lineage.of_child {n c m : Node} {above : List Node} (hc : c ∈ n.children)
    (h : Lineage c above m) : Lineage n (above ++ [n]) m := by
  induction h with
  | root => exact .child .root hc
  | child _ hchild ih => exact .child ih hchild

theorem lineages_child {n m c : Node} {outer above : List Node}
    (h : (above, m) ∈ n.lineages outer) (hc : c ∈ m.children) :
    (m :: above, c) ∈ n.lineages outer := by
  induction n using Node.induction generalizing outer with
  | step n ih =>
    rw [lineages_eq, List.mem_cons, mem_lineagesOf] at h ⊢
    rcases h with hroot | ⟨d, hd, hbelow⟩
    · cases hroot
      have hself : (m :: above, c) ∈ c.lineages (m :: above) := by
        rw [lineages_eq]
        exact List.mem_cons_self
      exact .inr ⟨c, hc, hself⟩
    · exact .inr ⟨d, hd, ih d hd hbelow⟩

/-- The nodes that are listed with a node are the ones that it stands below. -/
theorem mem_lineages {n m : Node} {outer above : List Node} :
    (above, m) ∈ n.lineages outer ↔ ∃ inner, above = inner ++ outer ∧ Lineage n inner m := by
  constructor
  · intro h
    induction n using Node.induction generalizing outer with
    | step n ih =>
      rw [lineages_eq, List.mem_cons, mem_lineagesOf] at h
      rcases h with hroot | ⟨c, hc, hbelow⟩
      · cases hroot
        exact ⟨[], rfl, .root⟩
      · obtain ⟨inner, rfl, hlineage⟩ := ih c hc hbelow
        exact ⟨inner ++ [n], List.append_cons .., hlineage.of_child hc⟩
  · rintro ⟨inner, rfl, hlineage⟩
    induction hlineage with
    | root =>
      rw [lineages_eq]
      exact List.mem_cons_self
    | child _ hc ih => exact lineages_child ih hc

/-- The variable names that have a node with an operator that arms them above them. -/
def armedNames (arms : Node → Bool) (ls : List (List Node × Node)) : List Node :=
  (ls.filter fun l => l.1.any (·.children.any arms) && l.2.kind = .variableName).map Prod.snd

theorem armedNames_append (arms : Node → Bool) (ls ls' : List (List Node × Node)) :
    armedNames arms (ls ++ ls') = armedNames arms ls ++ armedNames arms ls' := by
  rw [armedNames, List.filter_append, List.map_append, armedNames, armedNames]

theorem armedNames_lineages (arms : Node → Bool) (above : List Node) (n : Node) :
    armedNames arms (n.lineages above) =
      (if above.any (·.children.any arms) && n.kind = .variableName then [n] else [])
        ++ armedNames arms (lineagesOf (n :: above) n.children) := by
  rw [lineages_eq, armedNames, List.filter_cons]
  split <;> rfl

/-- Whether a node is an operator of a test that arms its operands. -/
def isArmingOperator (n : Node) : Bool :=
  n.kind = .testOperator && n.text.any Walk.armingOperators.contains

end Node

namespace Walk

/-! ## Recording names -/

theorem exec_injectable {ctx : Context} {opener : String} {n : Node} {written : String}
    (h : n.text = some written) (s : State) :
    (injectable ctx opener n).exec s =
      (.ok (), { s with
        scope := Scope.learned s.scope written
        injectable := s.injectable ++
          [{ name := Scope.meaning s.scope written
             line := n.lineIn ctx
             column := n.columnIn ctx
             opener := opener }] }) := by
  unfold injectable
  rw [exec_bind, exec_text h]
  simp only [exec_bind, exec_resolve_eq, recordInjectable, exec_modify]

/-- The records of variable names, one after the other. Each is recorded by what its text means in
the scope as the ones before it have left it. -/
def injectables (ctx : Context) (opener : String) : NameSet → List Node → List Injectable
  | _, [] => []
  | scope, n :: ns =>
    { name := Scope.meaning scope (n.text.getD "")
      line := n.lineIn ctx
      column := n.columnIn ctx
      opener := opener } :: injectables ctx opener (Scope.learned scope (n.text.getD "")) ns

/-- The scope after the names of nodes have been looked up. -/
def learnedFrom (scope : NameSet) (ns : List Node) : NameSet :=
  ns.foldl (fun scope n => Scope.learned scope (n.text.getD "")) scope

theorem injectables_append (ctx : Context) (opener : String) (scope : NameSet)
    (ms ns : List Node) : injectables ctx opener scope (ms ++ ns) =
      injectables ctx opener scope ms ++ injectables ctx opener (learnedFrom scope ms) ns := by
  induction ms generalizing scope with
  | nil => rfl
  | cons m ms ih => rw [List.cons_append, injectables, injectables, ih, List.cons_append]; rfl

/-- The walk returns, records the nodes as injectable one after the other, and taints nothing. -/
def Records (ctx : Context) (opener : String) (walk : Walk Unit) (ns : List Node) : Prop :=
  ∀ s, ∃ t, walk.exec s = (.ok (), t) ∧ t.tainted = s.tainted ∧
    t.scope = learnedFrom s.scope ns ∧
    t.injectable = s.injectable ++ injectables ctx opener s.scope ns

namespace Records

variable {ctx : Context} {opener : String}

theorem pure : Records ctx opener (pure ()) [] :=
  fun s => ⟨s, rfl, rfl, rfl, (List.append_nil _).symm⟩

theorem bind {walk next : Walk Unit} {ms ns : List Node} (h : Records ctx opener walk ms)
    (hnext : Records ctx opener next ns) :
    Records ctx opener (walk >>= fun _ => next) (ms ++ ns) := by
  intro s
  obtain ⟨t, hexec, htaint, hscope, hinjectable⟩ := h s
  obtain ⟨u, hexec', htaint', hscope', hinjectable'⟩ := hnext t
  refine ⟨u, ?_, htaint'.trans htaint, ?_, ?_⟩
  · rw [exec_bind, hexec]
    exact hexec'
  · rw [hscope', hscope, learnedFrom, learnedFrom, learnedFrom, List.foldl_append]
  · rw [hinjectable', hinjectable, hscope, injectables_append, List.append_assoc]

/-- A question that is answered without a change of the state. -/
theorem ask {α : Type} {walk : Walk α} {a : α} {next : α → Walk Unit} {ns : List Node}
    (h : ∀ s, walk.exec s = (.ok a, s)) (hnext : Records ctx opener (next a) ns) :
    Records ctx opener (walk >>= next) ns := by
  intro s
  obtain ⟨t, hexec, hrest⟩ := hnext s
  refine ⟨t, ?_, hrest⟩
  rw [exec_bind, h s]
  exact hexec

theorem modify {f : State → State} (htaint : ∀ s, (f s).tainted = s.tainted)
    (hscope : ∀ s, (f s).scope = s.scope) (hinjectable : ∀ s, (f s).injectable = s.injectable) :
    Records ctx opener (modify f) [] :=
  fun s => ⟨f s, rfl, htaint s, hscope s, (hinjectable s).trans (List.append_nil _).symm⟩

theorem injectable {n : Node} {written : String} (htext : n.text = some written) :
    Records ctx opener (injectable ctx opener n) [n] := by
  have hwritten : n.text.getD "" = written := by rw [htext]; rfl
  intro s
  refine ⟨_, exec_injectable htext s, rfl, ?_, ?_⟩
  · rw [learnedFrom, List.foldl_cons, hwritten]
    rfl
  · rw [injectables, hwritten]
    rfl

theorem subscript {n : Node} {written : String} (htext : n.text = some written) :
    Records ctx opener (subscript ctx n) [] :=
  fun s => ⟨_, exec_subscript htext s, rfl, rfl, (List.append_nil _).symm⟩

theorem expansion {n : Node} {written : String} (htext : n.text = some written) :
    Records ctx opener (expansion ctx n) [] := by
  have hsubscript : Records ctx opener
      (when ('[' ∈ written.toList) (Walk.subscript ctx n)) [] := by
    unfold when
    split
    · exact .subscript htext
    · exact .pure
  unfold Walk.expansion
  exact .ask (exec_text htext)
    (.bind hsubscript (.modify (fun _ => rfl) (fun _ => rfl) fun _ => rfl))

end Records

/-! ## Handing down the flag -/

/-- A recursion over trees that records a node if it is an armed variable name, and then goes on
below it. What is below is armed if the node is, or if one of its children arms. -/
structure HandsDown (ctx : Context) (opener : String) (arms : Node → Bool)
    (walk : Bool → Node → Walk Unit) (walkAll : Bool → List Node → Walk Unit) : Prop where
  node (armed : Bool) (n : Node) (ns : List Node) : n.text.isSome = true →
    (∀ c ∈ n.children, c.text.isSome = true) →
    Records ctx opener (walkAll (armed || n.children.any arms) n.children) ns →
    Records ctx opener (walk armed n) ((if armed && n.kind = .variableName then [n] else []) ++ ns)
  nil (armed : Bool) : walkAll armed [] = pure ()
  cons (armed : Bool) (n : Node) (ns : List Node) :
    walkAll armed (n :: ns) = (walk armed n >>= fun _ => walkAll armed ns)

namespace HandsDown

variable {ctx : Context} {opener : String} {arms : Node → Bool} {walk : Bool → Node → Walk Unit}
  {walkAll : Bool → List Node → Walk Unit}

theorem recordsAll (h : HandsDown ctx opener arms walk walkAll) {armed : Bool}
    {above ns : List Node}
    (hns : ∀ n ∈ ns, Records ctx opener (walk armed n) (Node.armedNames arms (n.lineages above))) :
    Records ctx opener (walkAll armed ns) (Node.armedNames arms (Node.lineagesOf above ns)) := by
  induction ns with
  | nil => exact h.nil armed ▸ .pure
  | cons n ns ih =>
    rw [Node.lineagesOf, Node.armedNames_append, h.cons]
    exact .bind (hns n List.mem_cons_self) (ih fun m hm => hns m (List.mem_cons_of_mem n hm))

/-- The flag is set at a node exactly if one of the nodes above has a child that arms. That is
so where the walk starts, and it stays so when the walk goes down. -/
theorem records (h : HandsDown ctx opener arms walk walkAll) {n : Node}
    (hn : n.Every (·.text.isSome = true)) (above : List Node) :
    Records ctx opener (walk (above.any (·.children.any arms)) n)
      (Node.armedNames arms (n.lineages above)) := by
  induction n using Node.induction generalizing above with
  | step n ih =>
    obtain ⟨hown, hchildren⟩ := Node.every_iff.1 hn
    rw [Node.armedNames_lineages]
    apply h.node _ _ _ hown
    · exact fun c hc => (Node.every_iff.1 (hchildren c hc)).1
    · have hbelow := h.recordsAll fun c hc => ih c hc (hchildren c hc) (n :: above)
      rwa [List.any_cons, Bool.or_comm] at hbelow

end HandsDown

/-! ## Tests and arithmetic -/

theorem exec_armsTest {ns : List Node} (h : ∀ n ∈ ns, n.text.isSome = true) (s : State) :
    (armsTest ns).exec s = (.ok (ns.any Node.isArmingOperator), s) := by
  induction ns with
  | nil => rfl
  | cons n ns ih =>
    obtain ⟨written, htext⟩ := Option.isSome_iff_exists.1 (h n List.mem_cons_self)
    have hrest := ih fun m hm => h m (List.mem_cons_of_mem n hm)
    unfold armsTest
    split
    · rename_i hkind
      rw [exec_bind, exec_text htext]
      simp only [exec_bind, hrest, exec_pure, List.any_cons, Node.isArmingOperator, hkind, htext,
        decide_true, Bool.true_and, Option.any_some]
    · rename_i hkind
      simp [hrest, Node.isArmingOperator, hkind]

theorem testOwn_records (ctx : Context) (opener : String) (armed : Bool) {n : Node}
    (h : n.text.isSome = true) :
    Records ctx opener (testOwn ctx opener armed n)
      (if armed && n.kind = .variableName then [n] else []) := by
  obtain ⟨written, htext⟩ := Option.isSome_iff_exists.1 h
  unfold testOwn
  split
  · exact .injectable htext
  · split
    · exact .expansion htext
    · exact .pure

theorem test_handsDown (ctx : Context) (opener : String) :
    HandsDown ctx opener Node.isArmingOperator (test ctx opener) (testAll ctx opener) where
  node armed n ns hn hchildren hbelow := by
    obtain ⟨kind, text, row, column, endColumn, children⟩ := n
    unfold test
    exact .bind (testOwn_records ctx opener armed hn) (.ask (exec_armsTest hchildren) hbelow)
  nil _ := rfl
  cons _ _ _ := rfl

theorem arithmetic_handsDown (ctx : Context) (opener : String) :
    HandsDown ctx opener (·.kind.isArithmeticOperator) (arithmetic ctx opener)
      (arithmeticAll ctx opener) where
  node armed n ns hn _ hbelow := by
    have hown : Records ctx opener
        (when (armed = true ∧ n.kind = .variableName) (injectable ctx opener n))
        (if armed && n.kind = .variableName then [n] else []) := by
      obtain ⟨written, htext⟩ := Option.isSome_iff_exists.1 hn
      unfold when
      simp only [Bool.and_eq_true, decide_eq_true_eq]
      split
      · exact .injectable htext
      · exact .pure
    obtain ⟨kind, text, row, column, endColumn, children⟩ := n
    unfold arithmetic
    exact .bind hown hbelow
  nil _ := rfl
  cons _ _ _ := rfl

/-- The kinds of expressions whose operands may be evaluated, with the operators that arm them. -/
inductive Evaluates : Kind → (Node → Bool) → Prop
  | test : Evaluates .testCommand Node.isArmingOperator
  | arithmetic : Evaluates .arithmeticExpansion (·.kind.isArithmeticOperator)

theorem exec_opener {ns : List Node} {first : Node} (h : ns.head? = some first) (s : State) :
    (opener ns).exec s = (.ok first.kind.name, s) := by
  cases ns with
  | nil => cases h
  | cons n ns =>
    cases h
    rfl

theorem visit_records (jump : Jump → Walk Unit) (ctx : Context) (runs : Bool) {n first : Node}
    {arms : Node → Bool} (hkind : Evaluates n.kind arms) (hfirst : n.children.head? = some first)
    (htexts : n.Every (·.text.isSome = true)) :
    Records ctx first.kind.name (visit jump ctx runs n)
      (Node.armedNames arms (n.lineages [])) := by
  have counted : Records ctx first.kind.name countVisit [] :=
    .modify (fun _ => rfl) (fun _ => rfl) fun _ => rfl
  obtain ⟨kind, text, row, column, endColumn, children⟩ := n
  cases hkind with
  | test =>
    unfold visit
    exact counted.bind (.ask (exec_opener hfirst) ((test_handsDown ctx _).records htexts []))
  | arithmetic =>
    unfold visit
    exact counted.bind (.ask (exec_opener hfirst) ((arithmetic_handsDown ctx _).records htexts []))

/-- A test or an arithmetic expression, whatever is in it, is walked to its end if all texts can
be read. Its variable names are recorded in the order of the text, each once and at its place,
exactly if a node above them in the expression has an operator that arms for a child; and
nothing is tainted. -/
theorem visit_records_armed (jump : Jump → Walk Unit) (ctx : Context) (runs : Bool) {n first : Node}
    {arms : Node → Bool} (hkind : Evaluates n.kind arms) (hfirst : n.children.head? = some first)
    (htexts : n.Every (·.text.isSome = true)) (s : State) :
    (∃ t, (visit jump ctx runs n).exec s = (.ok (), t) ∧ t.tainted = s.tainted ∧
        t.injectable = s.injectable ++
          injectables ctx first.kind.name s.scope (Node.armedNames arms (n.lineages []))) ∧
      (n.lineages []).map Prod.snd = n.all ∧
      ∀ above m, (above, m) ∈ n.lineages [] ↔ Node.Lineage n above m := by
  refine ⟨?_, Node.map_snd_lineages [] n, fun above m => ?_⟩
  · obtain ⟨t, hexec, htaint, -, hinjectable⟩ := visit_records jump ctx runs hkind hfirst htexts s
    exact ⟨t, hexec, htaint, hinjectable⟩
  · rw [Node.mem_lineages]
    simp

/-- A word of a line. -/
def wordAt (kind : Kind) (text : String) (column : Nat) : Node :=
  ⟨kind, some text, 0, column, column + text.length, []⟩

/-- The test `[[ $x -eq 1 && -n $y ]]`. -/
def mixedTest : Node :=
  ⟨.testCommand, some "[[ $x -eq 1 && -n $y ]]", 0, 0, 23,
    [wordAt (.other "[[") "[[" 0,
      ⟨.other "binary_expression", some "$x -eq 1 && -n $y", 0, 3, 20,
        [⟨.other "binary_expression", some "$x -eq 1", 0, 3, 11,
          [⟨.simpleExpansion, some "$x", 0, 3, 5,
            [wordAt (.other "$") "$" 3, wordAt .variableName "x" 4]⟩,
            wordAt .testOperator "-eq" 6, wordAt .number "1" 10]⟩,
          wordAt (.other "&&") "&&" 12,
          ⟨.other "unary_expression", some "-n $y", 0, 15, 20,
            [wordAt .testOperator "-n" 15,
              ⟨.simpleExpansion, some "$y", 0, 18, 20,
                [wordAt (.other "$") "$" 18, wordAt .variableName "y" 19]⟩]⟩]⟩,
      wordAt (.other "]]") "]]" 21]⟩

/-- The arithmetic expansion `$((x ? 0 : y + 1))`, with any operator in place of the plus. -/
def mixedArithmetic (operator : String) : Node :=
  ⟨.arithmeticExpansion, some ("$((x ? 0 : y " ++ operator ++ " 1))"), 0, 0, operator.length + 17,
    [wordAt (.other "$((") "$((" 0,
      ⟨.other "ternary_expression", some ("x ? 0 : y " ++ operator ++ " 1"), 0, 3,
        operator.length + 15,
        [wordAt .variableName "x" 3, wordAt (.other "?") "?" 5, wordAt .number "0" 7,
          wordAt (.other ":") ":" 9,
          ⟨.other "binary_expression", some ("y " ++ operator ++ " 1"), 0, 11, operator.length + 15,
            [wordAt .variableName "y" 11, wordAt (.other operator) operator 13,
              wordAt .number "1" (operator.length + 14)]⟩]⟩,
      wordAt (.other "))") "))" (operator.length + 15)]⟩

/-- The operators that arm in arithmetic. -/
def armingArithmetic : List String :=
  ["==", "!=", "<", ">", "<=", ">=", "+", "-", "*", "/", "%", "=", "+=", "-=", "*=", "/="]

/-- In the test `x` stands left of an operator that arms, and `y` right of one that does not. In
the arithmetic `y` stands left of an operator that arms, whichever of them it is, and `x` left of
one that does not. -/
theorem visit_records_armed_mixed :
    mixedTest.Every (·.text.isSome = true) ∧
      (∃ t, (visit (fun _ => pure ()) {} false mixedTest).exec {} = (.ok (), t) ∧
        t.tainted = ∅ ∧ t.injectable = [⟨"x", 0, 4, "[["⟩]) ∧
      ∀ operator ∈ armingArithmetic, (mixedArithmetic operator).Every (·.text.isSome = true) ∧
        ∃ t, (visit (fun _ => pure ()) {} false (mixedArithmetic operator)).exec {} = (.ok (), t) ∧
          t.tainted = ∅ ∧ t.injectable = [⟨"y", 0, 11, "$(("⟩] := by
  have htexts : mixedTest.Every (·.text.isSome = true) := by decide +kernel
  have hnames : injectables {} "[[" ∅
      (Node.armedNames Node.isArmingOperator (mixedTest.lineages [])) = [⟨"x", 0, 4, "[["⟩] := by
    decide +kernel
  have harithmetic : (armingArithmetic.all fun operator =>
      (mixedArithmetic operator).Every (·.text.isSome = true) ∧
        injectables {} "$((" ∅ (Node.armedNames (·.kind.isArithmeticOperator)
          ((mixedArithmetic operator).lineages [])) = [⟨"y", 0, 11, "$(("⟩]) = true := by
    decide +kernel
  refine ⟨htexts, ?_, fun operator hoperator => ?_⟩
  · obtain ⟨⟨t, hexec, htaint, hinjectable⟩, -⟩ :=
      visit_records_armed (fun _ => pure ()) {} false .test rfl htexts {}
    exact ⟨t, hexec, htaint, hinjectable.trans hnames⟩
  · obtain ⟨htexts, hnames⟩ := of_decide_eq_true (List.all_eq_true.1 harithmetic operator hoperator)
    obtain ⟨⟨t, hexec, htaint, hinjectable⟩, -⟩ :=
      visit_records_armed (fun _ => pure ()) {} false .arithmetic rfl htexts {}
    exact ⟨htexts, t, hexec, htaint, hinjectable.trans hnames⟩

end Walk

end ShellAudit
