-- SUMMARY: Every walk ends: a bound on its visits, computed from the trees, is a budget for it.
import ShellAudit.Proofs.Layout

/-!
# Termination

A jump into a function's body is paid by the definition of the function, and a
string that a shell is told to run is shorter than the text around it. So a bound
on the visits of a walk can be computed from the trees alone. With a budget of at
least this bound no jump is refused, and how large the budget is makes no
difference. The budget that is computed from a table of trees suffices too.
-/

namespace ShellAudit

namespace Walk

/-! ## Budgets -/

/-- The first walk exhausts its budget, or both do the same. -/
def Refines {α : Type} (walk walk' : Walk α) : Prop :=
  ∀ s, (walk.exec s).1 = .error .exhausted ∨ walk.exec s = walk'.exec s

namespace Refines

theorem refl {α : Type} (walk : Walk α) : Refines walk walk := fun _ => .inr rfl

theorem exhausted {α : Type} (walk : Walk α) : Refines (throw .exhausted) walk := fun _ => .inl rfl

theorem bind {α β : Type} {walk walk' : Walk α} {next next' : α → Walk β} (h : Refines walk walk')
    (hnext : ∀ a, Refines (next a) (next' a)) : Refines (walk >>= next) (walk' >>= next') := by
  intro s
  rw [exec_bind, exec_bind]
  rcases h s with hs | hs
  · rcases hexec : walk.exec s with ⟨fault | a, t⟩ <;> rw [hexec] at hs <;> cases hs
    exact .inl rfl
  · rw [← hs]
    rcases walk.exec s with ⟨fault | a, t⟩
    · exact .inr rfl
    · exact hnext a t

theorem joinTaint {step step' : Walk Unit} (h : Refines step step') :
    Refines (joinTaint step) (joinTaint step') := by
  intro s
  rw [exec_joinTaint, exec_joinTaint]
  rcases h s with hs | hs
  · rcases hexec : step.exec s with ⟨fault | a, t⟩ <;> rw [hexec] at hs <;> cases hs
    exact .inl rfl
  · rw [← hs]
    exact .inr rfl

/-- Nothing recovers from the exhaustion of the budget. -/
theorem recovering {step step' recover recover' : Walk Unit} (h : Refines step step')
    (hrecover : Refines recover recover') :
    Refines (recovering step recover) (recovering step' recover') := by
  intro s
  unfold Walk.recovering
  rw [exec_tryCatch, exec_tryCatch]
  rcases h s with hs | hs
  · rcases hexec : step.exec s with ⟨fault | a, t⟩ <;> rw [hexec] at hs <;> cases hs
    exact .inl rfl
  · rw [← hs]
    rcases step.exec s with ⟨fault | a, t⟩
    · simp only
      split
      · exact .inr rfl
      · exact hrecover t
    · exact .inr rfl

end Refines

theorem Composed.refines {α : Type} {walk walk' : Walk α} (h : Composed Refines walk walk') :
    Refines walk walk' := by
  induction h with
  | plain _ => exact .refl _
  | related h => exact h
  | bind _ _ ih ihnext => exact .bind ih ihnext
  | joinTaint _ ih => exact .joinTaint ih
  | countVisit => exact .refl _
  | define name body => exact .refl _
  | enter name => exact .refl _
  | lookup name => exact .refl _
  | recovering _ _ ih ihrecover => exact .recovering ih ihrecover

/-- A larger budget changes nothing in a walk that does not exhaust its budget. -/
theorem visit_refines (parse? : String → Option Node) {budget budget' : Nat} (h : budget ≤ budget')
    (ctx : Context) (runs : Bool) (node : Node) :
    Refines (visit (follow parse? budget) ctx runs node)
      (visit (follow parse? budget') ctx runs node) := by
  obtain ⟨d, rfl⟩ := Nat.exists_eq_add_of_le' h
  have jumps :=
    Composed.follow (R := Refines) parse? (fun jump => .exhausted (follow parse? d jump)) budget
  exact (Composed.visit jumps ctx runs node).refines

/-- A walk gives the same outcome with all budgets that it does not exhaust. -/
theorem visit_budget_irrelevant {parse? : String → Option Node} {ctx : Context} {runs : Bool}
    {node : Node} {s : State} {budget budget' : Nat}
    (h : ((visit (follow parse? budget) ctx runs node).exec s).1 ≠ .error .exhausted)
    (h' : ((visit (follow parse? budget') ctx runs node).exec s).1 ≠ .error .exhausted) :
    (visit (follow parse? budget) ctx runs node).exec s =
      (visit (follow parse? budget') ctx runs node).exec s := by
  rcases Nat.le_total budget budget' with hle | hle
  · exact (visit_refines parse? hle ctx runs node s).resolve_left h
  · exact ((visit_refines parse? hle ctx runs node s).resolve_left h').symm

/-! ## The bound -/

/-- A walk from the start ends with any budget that covers the cost of its root,
and makes no more visits than that. -/
theorem visit_ends {parse? : String → Option Node} {level : String → Nat}
    (hlevel : ∀ script root, parse? (String.ofList (unquote script.toList)) = some root →
      Nests level (level script) root)
    {k : Nat} {root : Node} (hroot : Nests level k root) {budget : Nat}
    (hbudget : root.cost (scriptCost parse? k) ≤ budget) :
    ((visit (follow parse? budget) {} false root).exec {}).1 ≠ .error .exhausted ∧
      ((visit (follow parse? budget) {} false root).exec {}).2.visits ≤
        root.cost (scriptCost parse? k) := by
  have spends := spends_visit (follow_affords hlevel budget) {} false hroot
  obtain ⟨hends, -, h, -, hcost⟩ := spends {} 0 (.nil 0) (by omega)
  refine ⟨hends, ?_⟩
  have start : ({} : State).visits = 0 := rfl
  omega

end Walk

/-! ## The budget of a table -/

mutual

/-- Where strings to run cost at most `m`, a node costs at most its load for each
unit of `m`, and once more. -/
theorem Node.cost_le_load {nested : String → Nat} {m : Nat} (h : ∀ script, nested script ≤ m)
    (n : Node) : n.cost nested ≤ n.load * (m + 1) := by
  obtain ⟨kind, text, row, column, endColumn, children⟩ := n
  have all := Node.costAll_le_loadAll h children
  rw [Node.cost_eq, Node.load]
  have own : (Node.script? ⟨kind, text, row, column, endColumn, children⟩).elim 0 nested ≤ m := by
    cases Node.script? ⟨kind, text, row, column, endColumn, children⟩ with
    | none => exact Nat.zero_le m
    | some script => exact h script
  calc 2 + (Node.script? ⟨kind, text, row, column, endColumn, children⟩).elim 0 nested +
        2 * Node.costAll nested children
      ≤ 2 + m + 2 * (Node.loadAll children * (m + 1)) := by omega
    _ ≤ (2 + 2 * Node.loadAll children) * (m + 1) := by
      rw [Nat.add_mul, Nat.mul_assoc]
      omega

theorem Node.costAll_le_loadAll {nested : String → Nat} {m : Nat} (h : ∀ script, nested script ≤ m)
    (ns : List Node) : Node.costAll nested ns ≤ Node.loadAll ns * (m + 1) := by
  cases ns with
  | nil => exact Nat.zero_le _
  | cons n ns =>
    rw [Node.costAll, Node.loadAll, Nat.add_mul]
    exact Nat.add_le_add (Node.cost_le_load h n) (Node.costAll_le_loadAll h ns)

end

namespace Grammar

theorem le_foldl_max {a : Nat} (as : List Nat) {start : Nat} (h : a ≤ start ∨ a ∈ as) :
    a ≤ as.foldl max start := by
  induction as generalizing start with
  | nil => exact h.resolve_right List.not_mem_nil
  | cons b bs ih =>
    refine ih ?_
    rcases h with h | h
    · exact .inl (by omega)
    · rcases List.mem_cons.1 h with rfl | h
      · exact .inl (by omega)
      · exact .inr h

variable (g : Grammar)

/-- A text has an entry in the table, or it is a bare program. -/
theorem tree?_cases {text : String} {tree : Option Tree} (h : g.tree? text = tree) :
    (text, tree) ∈ g.entries ∨ tree = some (bare text) := by
  unfold tree? at h
  split at h
  · rename_i text' tree' hfind
    rw [List.findRev?_eq_find?_reverse] at hfind
    have hmem := List.mem_reverse.1 (List.mem_of_find?_eq_some hfind)
    have hname : text' = text := by simpa using List.find?_some hfind
    rw [← h, ← hname]
    exact .inl hmem
  · exact .inr h.symm

/-- A table of laid trees is a source of laid trees. -/
theorem laid_of_entries
    (h : ∀ entry ∈ g.entries, ∀ tree, entry.2 = some tree → tree.Laid 0 entry.1.utf8ByteSize)
    (text : String) (tree : Tree) (htree : g.tree? text = some tree) :
    tree.Laid 0 text.utf8ByteSize := by
  rcases g.tree?_cases htree with hentry | hbare
  · exact h (text, some tree) hentry tree rfl
  · cases hbare
    exact Tree.laid_iff.2 ⟨Nat.le_refl 0, Nat.zero_le _, Nat.le_refl _, trivial⟩

theorem load_le {text : String} {root : Node} (h : g.parse? text = some root) :
    root.load ≤ g.load := by
  obtain ⟨tree, htree, rfl⟩ := Option.map_eq_some_iff.1 h
  rcases g.tree?_cases htree with hmem | hbare
  · exact le_foldl_max _ (.inr (List.mem_map.2 ⟨(text, some tree), hmem, rfl⟩))
  · cases hbare
    exact le_foldl_max _ (.inl (Nat.le_refl 2))

/-- The texts in the table. -/
def texts : List String := g.entries.map Prod.fst

/-- How many texts in the table are shorter than a text. -/
def shorter (text : String) : Nat :=
  (g.texts.filter fun entry => entry.utf8ByteSize < text.utf8ByteSize).length

theorem shorter_lt_length {text : String} (h : text ∈ g.texts) :
    g.shorter text < g.entries.length := by
  have : g.shorter text < g.texts.length :=
    List.length_filter_lt_length_iff_exists.2 ⟨text, h, by simp⟩
  rwa [texts, List.length_map] at this

theorem shorter_lt {text text' : String} (h : text ∈ g.texts)
    (hsize : text.utf8ByteSize < text'.utf8ByteSize) : g.shorter text < g.shorter text' := by
  have hfilter : g.texts.filter (fun entry => entry.utf8ByteSize < text.utf8ByteSize) =
      (g.texts.filter fun entry => entry.utf8ByteSize < text'.utf8ByteSize).filter
        fun entry => entry.utf8ByteSize < text.utf8ByteSize := by
    rw [List.filter_filter]
    refine List.filter_congr fun entry _ => ?_
    simp only [← Bool.decide_and, decide_eq_decide]
    omega
  rw [shorter, hfilter]
  refine List.length_filter_lt_length_iff_exists.2 ⟨text, ?_, by simp⟩
  exact List.mem_filter.2 ⟨h, by simpa using hsize⟩

/-- The rank of a text in the table: one more than there are shorter ones, or
zero if it is not in the table. -/
def rank (text : String) : Nat :=
  if text ∈ g.texts then g.shorter text + 1 else 0

theorem rank_le (text : String) : g.rank text ≤ g.entries.length := by
  unfold rank
  split
  · rename_i h
    exact g.shorter_lt_length h
  · exact Nat.zero_le _

theorem rank_lt {text text' : String} (h : text' ∈ g.texts)
    (hsize : text.utf8ByteSize < text'.utf8ByteSize) : g.rank text < g.rank text' := by
  unfold rank
  rw [if_pos h]
  split
  · rename_i hmem
    exact Nat.succ_lt_succ (g.shorter_lt hmem hsize)
  · exact Nat.succ_pos _

/-- The level of a string to run is the rank of the text between its quotes. -/
def level (script : String) : Nat := g.rank (String.ofList (Walk.unquote script.toList))

/-- Strings in the tree of a text have a lower level than the text has rank. -/
theorem nests_rank {g : Grammar}
    (hlaid : ∀ text tree, g.tree? text = some tree → tree.Laid 0 text.utf8ByteSize) {text : String}
    {root : Node} (hroot : g.parse? text = some root) : Walk.Nests g.level (g.rank text) root := by
  obtain ⟨tree, htree, rfl⟩ := Option.map_eq_some_iff.1 hroot
  rcases g.tree?_cases htree with hentry | hbare
  · have hmem : text ∈ g.texts := List.mem_map.2 ⟨_, hentry, rfl⟩
    have nests := Tree.nests_of_laid (Tree.bytes text) (hlaid text tree htree) (Nat.le_refl _)
    refine nests.imp fun n hn nested hnested => g.rank_lt hmem ?_
    have hsize := hn nested hnested
    have hunquote := Walk.unquote_size nested
    omega
  · cases hbare
    exact Node.every_iff.2 ⟨nofun, nofun⟩

/-- The cost of a string is exponential in the depth to which strings are nested. -/
theorem scriptCost_lt (depth : Nat) (script : String) :
    Walk.scriptCost g.parse? depth script < (g.load + 1) ^ depth := by
  induction depth generalizing script with
  | zero => exact Nat.one_pos
  | succ depth ih =>
    have hm : 0 < (g.load + 1) ^ depth := Nat.pos_of_ne_zero (by simp)
    rw [Walk.scriptCost]
    split
    · rename_i root hroot
      calc root.cost (Walk.scriptCost g.parse? depth)
          ≤ root.load * ((g.load + 1) ^ depth - 1 + 1) :=
            Node.cost_le_load (fun script => Nat.le_pred_of_lt (ih script)) root
        _ = root.load * (g.load + 1) ^ depth := by rw [Nat.sub_add_cancel hm]
        _ ≤ g.load * (g.load + 1) ^ depth := Nat.mul_le_mul_right _ (g.load_le hroot)
        _ < (g.load + 1) * (g.load + 1) ^ depth := by
          rw [Nat.add_mul]
          omega
        _ = (g.load + 1) ^ (depth + 1) := (Nat.pow_succ').symm
    · exact Nat.pos_of_ne_zero (by simp)

/-- The budget for a walk of nodes of a given load covers their cost. -/
theorem cost_le_budget (root : Node) :
    root.cost (Walk.scriptCost g.parse? (g.entries.length + 1)) ≤ g.budget root.load := by
  have hm : 0 < (g.load + 1) ^ (g.entries.length + 1) := Nat.pos_of_ne_zero (by simp)
  calc root.cost (Walk.scriptCost g.parse? (g.entries.length + 1))
      ≤ root.load * ((g.load + 1) ^ (g.entries.length + 1) - 1 + 1) :=
        Node.cost_le_load (fun script => Nat.le_pred_of_lt (g.scriptCost_lt _ script)) root
    _ = root.load * (g.load + 1) ^ (g.entries.length + 1) := by rw [Nat.sub_add_cancel hm]
    _ ≤ (g.load + root.load + 1) * (g.load + root.load + 1) ^ (g.entries.length + 1) :=
        Nat.mul_le_mul (by omega) (Nat.pow_le_pow_left (by omega) _)
    _ = g.budget root.load := (Nat.pow_succ').symm

/-- The budget that is computed from the table is not exhausted. -/
theorem visit_ends
    (hlaid : ∀ text tree, g.tree? text = some tree → tree.Laid 0 text.utf8ByteSize) {text : String}
    {root : Node} (hroot : g.parse? text = some root) :
    ((Walk.visit (Walk.follow g.parse? (g.budget root.load)) {} false root).exec {}).1 ≠
      .error .exhausted := by
  have nests : Walk.Nests g.level (g.entries.length + 1) root :=
    (nests_rank hlaid hroot).imp fun n hn nested hnested => by
      have := hn nested hnested
      have := g.rank_le text
      omega
  exact (Walk.visit_ends (fun _ _ h => nests_rank hlaid h) nests (g.cost_le_budget root)).1

end Grammar

/-! ## Scripts -/

namespace Walk

/-- The syntax nodes of the trees that a source gives. -/
def nodes (source : String → Option Tree) (text : String) : Option Node :=
  (source text).map (Tree.resolve (Tree.bytes text))

theorem parse?_eq_nodes (g : Grammar) : g.parse? = nodes g.tree? := rfl

/-- The walk of a whole script, with a given budget for nested jumps. -/
def scriptWithin (parse? : String → Option Node) (budget : Nat) (text : String) : Walk Unit :=
  match parse? text with
  | some root => visit (follow parse? budget) {} false root
  | none => throw .parseFailed

/-- A bound on the visits in the walk of a script, computed from the trees of the
script and of the strings in it. -/
def visitBound (parse? : String → Option Node) (text : String) : Nat :=
  match parse? text with
  | some root => root.cost (scriptCost parse? text.utf8ByteSize)
  | none => 0

theorem nodes_nests {source : String → Option Tree}
    (hlaid : ∀ text tree, source text = some tree → tree.Laid 0 text.utf8ByteSize) {text : String}
    {root : Node} (hroot : nodes source text = some root) {k : Nat} (hk : text.utf8ByteSize ≤ k) :
    Nests String.utf8ByteSize k root := by
  obtain ⟨tree, htree, rfl⟩ := Option.map_eq_some_iff.1 hroot
  exact Tree.nests_of_laid _ (hlaid text tree htree) hk

/-- With a table, a script is walked within the budget that the table gives. -/
theorem exec_script (g : Grammar) (text : String) :
    (script g text).exec {} =
      (scriptWithin g.parse? (g.budget ((g.parse? text).elim 0 Node.load)) text).exec {} := by
  unfold script scriptWithin
  cases g.parse? text with
  | none => rfl
  | some root =>
    simp only [Walk.root, jumping, exec_bind, exec_get, budgetFor, Option.elim]
    rfl

/-- The walk of a script whose text has a tree. -/
theorem exec_script_of_parse {g : Grammar} {text : String} {root : Node}
    (hroot : g.parse? text = some root) :
    (script g text).exec {} =
      (visit (follow g.parse? (g.budget root.load)) {} false root).exec {} := by
  rw [exec_script, hroot]
  simp only [scriptWithin, Option.elim, hroot]

/-- The walk of every script ends. The number of its visits is at most a bound
that is computed from the trees alone, a walk with any budget above the bound has
the same outcome, and so has the walk with the budget computed from a table. -/
theorem script_terminates (source : String → Option Tree)
    (hlaid : ∀ text tree, source text = some tree → tree.Laid 0 text.utf8ByteSize) (text : String) :
    ∃ outcome : Except Fault Unit × State,
      outcome.1 ≠ .error .exhausted ∧
      outcome.2.visits ≤ visitBound (nodes source) text ∧
      (∀ budget, visitBound (nodes source) text ≤ budget →
        (scriptWithin (nodes source) budget text).exec {} = outcome) ∧
      ∀ g : Grammar, g.tree? = source → (script g text).exec {} = outcome := by
  refine ⟨(scriptWithin (nodes source) (visitBound (nodes source) text) text).exec {}, ?_⟩
  unfold visitBound scriptWithin
  cases hroot : nodes source text with
  | none =>
    refine ⟨nofun, Nat.le_refl 0, fun _ _ => rfl, fun g hg => ?_⟩
    subst hg
    rw [exec_script, parse?_eq_nodes, scriptWithin, hroot]
  | some root =>
    have hlevel (script : String) (root : Node)
        (h : nodes source (String.ofList (unquote script.toList)) = some root) :
        Nests String.utf8ByteSize script.utf8ByteSize root :=
      nodes_nests hlaid h (unquote_size script)
    have nests := nodes_nests hlaid hroot (Nat.le_refl _)
    obtain ⟨hends, hvisits⟩ := visit_ends hlevel nests (Nat.le_refl _)
    -- Neither budget is exhausted, so both walks are the same.
    refine ⟨hends, hvisits, fun budget hbudget => ?_, fun g hg => ?_⟩
    · exact visit_budget_irrelevant (visit_ends hlevel nests hbudget).1 hends
    · subst hg
      rw [exec_script, parse?_eq_nodes, scriptWithin, hroot]
      exact visit_budget_irrelevant (g.visit_ends hlaid hroot) hends

/-- The script `f(){ sh -c f;};f`, a function that calls itself through a shell. -/
def recursing : Grammar where
  entries :=
    [("f(){ sh -c f;};f", some ⟨.program, 0, 16,
        [⟨.functionDefinition, 0, 14,
          [⟨.word, 0, 1, []⟩, ⟨.other "(", 1, 2, []⟩, ⟨.other ")", 2, 3, []⟩,
            ⟨.compoundStatement, 3, 14,
              [⟨.command, 5, 12,
                [⟨.commandName, 5, 7, [⟨.word, 5, 7, []⟩]⟩, ⟨.word, 8, 10, []⟩,
                  ⟨.word, 11, 12, []⟩]⟩]⟩]⟩,
          ⟨.command, 15, 16, [⟨.commandName, 15, 16, [⟨.word, 15, 16, []⟩]⟩]⟩]⟩),
      ("f", some ⟨.program, 0, 1,
        [⟨.command, 0, 1, [⟨.commandName, 0, 1, [⟨.word, 0, 1, []⟩]⟩]⟩]⟩)]

theorem script_terminates_recursing :
    let outcome := (script recursing "f(){ sh -c f;};f").exec {}
    (∀ text tree, recursing.tree? text = some tree → tree.Laid 0 text.utf8ByteSize) ∧
      outcome.1 ≠ .error .exhausted ∧
      outcome.2.visits ≤ visitBound recursing.parse? "f(){ sh -c f;};f" ∧
      outcome.2.visits = 10 := by
  have hlaid : ∀ text tree, recursing.tree? text = some tree → tree.Laid 0 text.utf8ByteSize :=
    recursing.laid_of_entries (by simp [recursing, Tree.Laid, Tree.LaidAll]; decide)
  obtain ⟨outcome, hends, hvisits, -, hscript⟩ :=
    script_terminates recursing.tree? hlaid "f(){ sh -c f;};f"
  rw [← hscript recursing rfl] at hends hvisits
  exact ⟨hlaid, hends, hvisits, by decide +kernel⟩

end Walk

end ShellAudit
