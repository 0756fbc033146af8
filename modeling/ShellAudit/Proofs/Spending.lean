-- SUMMARY: A calculus of what walks spend: visits of nodes, and bodies that functions still hold.
import ShellAudit.Proofs.Draft

/-!
# Spending

The cost of a node bounds how many visits a walk of it can make. A function
definition spends nothing at once: its cost is put aside with the function, and
pays for the walk of the body when the function is entered. A string that a shell
is told to run has a cost of its own, as long as it has a lower level than the
text around it.

`Spends b p walk q` says that a walk which is given `p`, and may use what the
functions hold, leaves `q` over, and that a budget of `b` for nested jumps is not
exhausted by it.
-/

namespace ShellAudit

namespace Node

mutual

/-- How many visits a walk of the node can make, and one for the jumps that it
makes itself. Each child counts twice, since the value of an assignment before a
command inside a value is read with the command and with the value. -/
def cost (nested : String → Nat) : Node → Nat
  | node@⟨_, _, _, _, _, children⟩ => 2 + node.script?.elim 0 nested + 2 * costAll nested children

/-- The costs of the nodes together. -/
def costAll (nested : String → Nat) : List Node → Nat
  | [] => 0
  | n :: ns => cost nested n + costAll nested ns

end

theorem cost_eq (nested : String → Nat) (n : Node) :
    n.cost nested = 2 + n.script?.elim 0 nested + 2 * costAll nested n.children := by
  obtain ⟨kind, text, row, column, endColumn, children⟩ := n
  rw [cost]

end Node

/-- What a function holds: the cost of its body, until it is entered. -/
def Function.held (nested : String → Nat) (f : Function) : Nat :=
  if f.entered then 0 else Node.costAll nested f.body

namespace Walk

/-- The cost of a string that a shell is told to run, with strings nested in it
at most `depth` deep. -/
def scriptCost (parse? : String → Option Node) : Nat → String → Nat
  | 0, _ => 0
  | depth + 1, script =>
    match parse? (String.ofList (unquote script.toList)) with
    | some root => root.cost (scriptCost parse? depth)
    | none => 0

/-- The strings to run in a tree all have a level below `k`. -/
def Nests (level : String → Nat) (k : Nat) (n : Node) : Prop :=
  n.Every fun m => ∀ script, m.script? = some script → level script < k

theorem Nests.child {level : String → Nat} {k : Nat} {n c : Node} (h : Nests level k n)
    (hc : c ∈ n.children) : Nests level k c :=
  (Node.every_iff.1 h).2 c hc

theorem Nests.script {level : String → Nat} {k : Nat} {n : Node} (h : Nests level k n)
    {script : String} (hs : n.script? = some script) : level script < k :=
  (Node.every_iff.1 h).1 script hs

section

variable (parse? : String → Option Node) (level : String → Nat)

/-! ## What functions hold -/

/-- A table whose functions hold at most `p` together. Each body has a level of
its own, that of the text in which its function was defined. -/
inductive Holds : FunctionTable → Nat → Prop
  | nil (p : Nat) : Holds [] p
  | cons {table : FunctionTable} {p q : Nat} (f : Function) (k : Nat) (hname : f.name ∉ table.names)
      (hbody : f.entered = false → ∀ n ∈ f.body, Nests level k n) (htable : Holds table p)
      (hq : f.held (scriptCost parse? k) + p ≤ q) : Holds (f :: table) q

variable {parse? level} {table : FunctionTable} {p : Nat}

theorem not_mem_names_append {other : String} {f : Function} (hother : other ∉ table.names)
    (hne : f.name ≠ other) : other ∉ FunctionTable.names (table ++ [f]) := by
  simp only [FunctionTable.names, List.map_append, List.map_cons, List.map_nil, List.mem_append,
    List.mem_singleton, not_or]
  exact ⟨hother, Ne.symm hne⟩

theorem not_mem_names_map {other : String} {change : Function → Function}
    (hchange : ∀ f, (change f).name = f.name) (hother : other ∉ table.names) :
    other ∉ FunctionTable.names (table.map change) := by
  simpa [FunctionTable.names, Function.comp_def, hchange] using hother

theorem Holds.append (h : Holds parse? level table p) {name : String} (hname : name ∉ table.names)
    {body : List Node} {k : Nat} (hbody : ∀ n ∈ body, Nests level k n) :
    Holds parse? level (table ++ [⟨name, body, false⟩])
      (Node.costAll (scriptCost parse? k) body + p) := by
  induction h with
  | nil p =>
    exact .cons ⟨name, body, false⟩ k List.not_mem_nil (fun _ => hbody) (.nil p) (Nat.le_refl _)
  | @cons table p q f k' hother hbody' _ hq ih =>
    obtain ⟨hne, hname⟩ := not_or.1 (mt List.mem_cons.2 hname)
    rw [List.cons_append]
    exact .cons f k' (not_mem_names_append hother hne) hbody' (ih hname) (by omega)

/-- Where a name is in the table, the cost of its new body is added. -/
theorem Holds.replace (h : Holds parse? level table p) (name : String) {body : List Node} {k : Nat}
    (hbody : ∀ n ∈ body, Nests level k n) :
    Holds parse? level (table.map fun f => if f.name = name then ⟨name, body, false⟩ else f)
      ((if name ∈ table.names then Node.costAll (scriptCost parse? k) body else 0) + p) := by
  have hchange (f : Function) :
      (if f.name = name then (⟨name, body, false⟩ : Function) else f).name = f.name := by
    split
    · rename_i h
      exact h.symm
    · rfl
  induction h with
  | nil p => exact .nil _
  | @cons table p q f k' hother hbody' _ hq ih =>
    have hkept := not_mem_names_map hchange hother
    rw [List.map_cons]
    by_cases hne : f.name = name
    -- Names are there once, so the rest of the table is as before.
    · rw [hne] at hother hkept
      rw [if_neg hother] at ih
      rw [if_pos hne, if_pos (hne ▸ List.mem_cons_self)]
      exact .cons ⟨name, body, false⟩ k hkept (fun _ => hbody) ih (by
        simp only [Function.held, Bool.false_eq_true, if_false]
        omega)
    · have hnames : name ∈ FunctionTable.names (f :: table) ↔ name ∈ table.names := by
        simp [FunctionTable.names, Ne.symm hne]
      rw [if_neg hne]
      simp only [hnames]
      exact .cons f k' hkept hbody' ih (by omega)

/-- A definition puts the cost of its body aside. -/
theorem Holds.define (h : Holds parse? level table p) (name : String) {body : List Node} {k : Nat}
    (hbody : ∀ n ∈ body, Nests level k n) :
    Holds parse? level (table.define name body) (Node.costAll (scriptCost parse? k) body + p) := by
  have hany : table.any (·.name == name) = true ↔ name ∈ table.names := by
    simp only [FunctionTable.names, List.any_eq_true, List.mem_map, beq_iff_eq]
  unfold FunctionTable.define
  split
  · rename_i hmem
    have := h.replace name hbody
    rwa [if_pos (hany.1 hmem)] at this
  · rename_i hmem
    exact h.append (mt hany.2 hmem) hbody

theorem enter_of_not_mem {name : String} (h : name ∉ table.names) : table.enter name = table := by
  have hne (f : Function) (hf : f ∈ table) : f.name ≠ name :=
    fun heq => h (List.mem_map.2 ⟨f, hf, heq⟩)
  calc table.enter name
      = table.map id := List.map_congr_left fun f hf => if_neg (hne f hf)
    _ = table := List.map_id table

/-- Entering a function takes the cost of its body out. -/
theorem Holds.enter (h : Holds parse? level table p) {name : String} {f : Function}
    (hf : table.get? name = some f) (hentered : f.entered = false) :
    ∃ k q, (∀ n ∈ f.body, Nests level k n) ∧ Holds parse? level (table.enter name) q ∧
      Node.costAll (scriptCost parse? k) f.body + q ≤ p := by
  have hchange (g : Function) :
      (if g.name = name then { g with entered := true } else g).name = g.name := by
    split <;> rfl
  induction h with
  | nil p => cases hf
  | @cons table p q g k hother hbody htable hq ih =>
    have hkept := not_mem_names_map hchange hother
    by_cases hne : g.name = name
    · simp only [FunctionTable.get?, List.find?_cons, hne, beq_self_eq_true] at hf
      cases hf
      refine ⟨k, p, hbody hentered, ?_, ?_⟩
      · rw [FunctionTable.enter, List.map_cons, if_pos hne, ← FunctionTable.enter]
        rw [enter_of_not_mem (hne ▸ hother)]
        exact .cons { f with entered := true } k hother (by simp) htable (by simp [Function.held])
      · simpa only [Function.held, hentered, Bool.false_eq_true, if_false] using hq
    · have htail : table.get? name = some f := by
        simpa [FunctionTable.get?, List.find?_cons, hne] using hf
      obtain ⟨k', q', hbody', hq', hcost⟩ := ih htail
      refine ⟨k', g.held (scriptCost parse? k) + q', hbody', ?_, by omega⟩
      rw [FunctionTable.enter, List.map_cons, if_neg hne]
      exact .cons g k hkept hbody hq' (Nat.le_refl _)

/-! ## The calculus -/

/-- What is left over at the end: nothing if the walk has stopped with a fault. -/
def leftover {α : Type} (q : α → Nat) : Except Fault α → Nat
  | .ok a => q a
  | .error _ => 0

variable (parse? level)

/-- A walk has started from a state whose functions hold `h`. It has not exhausted
its budget, and the nodes that it has visited, what the functions hold now and what
is left over are covered by `h` and `p`. -/
structure Spent {α : Type} (p : Nat) (q : α → Nat) (s : State) (h : Nat)
    (outcome : Except Fault α × State) : Prop where
  ends : outcome.1 ≠ .error .exhausted
  visits : s.visits ≤ outcome.2.visits
  holds : ∃ h', Holds parse? level outcome.2.functions h' ∧
    outcome.2.visits + h' + leftover q outcome.1 ≤ s.visits + h + p

/-- The walk does with `p` and what the functions hold, which is at most `b`
together, and leaves `q` over. -/
def Spends {α : Type} (b p : Nat) (walk : Walk α) (q : α → Nat) : Prop :=
  ∀ s h, Holds parse? level s.functions h → h + p ≤ b → Spent parse? level p q s h (walk.exec s)

variable {parse? level} {α β : Type} {b : Nat} {walk : Walk α} {q : α → Nat}

namespace Spends

theorem pure (q : α → Nat) (a : α) : Spends parse? level b (q a) (pure a) q :=
  fun _ h hs _ => ⟨nofun, Nat.le_refl _, h, hs, Nat.le_refl _⟩

theorem throw {fault : Fault} (hfault : fault ≠ .exhausted) (q : α → Nat) :
    Spends parse? level b p (throw fault) q :=
  fun _ h hs _ =>
    ⟨fun heq => hfault (by cases heq; rfl), Nat.le_refl _, h, hs, Nat.le_add_right _ _⟩

/-- A step that touches neither functions nor visits. -/
theorem quiet {step : Walk Unit}
    (hstep : ∀ s, ∃ t,
      step.exec s = (.ok (), t) ∧ t.functions = s.functions ∧ t.visits = s.visits) :
    Spends parse? level b p step fun _ => p := by
  intro s h hs _
  obtain ⟨t, hexec, hfunctions, hvisits⟩ := hstep s
  rw [hexec]
  exact ⟨nofun, Nat.le_of_eq hvisits.symm, h, hfunctions ▸ hs, Nat.le_of_eq (by rw [hvisits]; rfl)⟩

/-- What is over when a walk ends is spent by the next one, which may rely on
what the first one returns. -/
theorem bind {next : α → Walk β} {r : β → Nat} {P : α → Prop}
    (hwalk : Spends parse? level b p walk q) (hreturns : Returns walk P)
    (hnext : ∀ a, P a → Spends parse? level b (q a) (next a) r) :
    Spends parse? level b p (walk >>= next) r := by
  intro s h hs hb
  obtain ⟨hends, hvisits, h', hs', hcost⟩ := hwalk s h hs hb
  rcases hexec : walk.exec s with ⟨fault | a, t⟩ <;> rw [hexec] at hends hvisits hs' hcost
  · have hstop : (walk >>= next).exec s = (.error fault, t) := by rw [exec_bind, hexec]
    rw [hstop]
    exact ⟨fun heq => hends (by cases heq; rfl), hvisits, h', hs', hcost⟩
  · have hgo : (walk >>= next).exec s = (next a).exec t := by rw [exec_bind, hexec]
    simp only [leftover] at hvisits hs' hcost
    rw [hgo]
    obtain ⟨hends', hvisits', h'', hs'', hcost'⟩ :=
      hnext a (hreturns s a t hexec) t h' hs' (by omega)
    exact ⟨hends', by omega, h'', hs'', by omega⟩

theorem seq {next : α → Walk β} {r : β → Nat} (hwalk : Spends parse? level b p walk q)
    (hnext : ∀ a, Spends parse? level b (q a) (next a) r) :
    Spends parse? level b p (walk >>= next) r :=
  hwalk.bind (.any walk) fun a _ => hnext a

/-- More at the start is more at the end, and some of it may be dropped. -/
theorem adjust {c : Nat} {d : α → Nat} (hwalk : Spends parse? level b p walk q) (hp : p ≤ c)
    (hq : ∀ a, d a + p ≤ q a + c) : Spends parse? level b c walk d := by
  intro s h hs hb
  obtain ⟨hends, hvisits, h', hs', hcost⟩ := hwalk s h hs (by omega)
  refine ⟨hends, hvisits, h', hs', ?_⟩
  cases hresult : (walk.exec s).1 with
  | ok a =>
    have := hq a
    simp only [hresult, leftover] at hcost ⊢
    omega
  | error fault =>
    simp only [hresult, leftover] at hcost ⊢
    omega

/-- A unit that is given and given back leaves room for one jump more. -/
theorem lift (hwalk : Spends parse? level b p walk q) :
    Spends parse? level (b + 1) (p + 1) walk fun a => q a + 1 := by
  intro s h hs hb
  obtain ⟨hends, hvisits, h', hs', hcost⟩ := hwalk s h hs (by omega)
  refine ⟨hends, hvisits, h', hs', ?_⟩
  cases hresult : (walk.exec s).1 with
  | ok a =>
    simp only [hresult, leftover] at hcost ⊢
    omega
  | error fault =>
    simp only [hresult, leftover] at hcost ⊢
    omega

theorem countVisit : Spends parse? level b (p + 1) countVisit fun _ => p := by
  intro s h hs _
  refine ⟨nofun, Nat.le_succ _, h, hs, ?_⟩
  simp only [Walk.countVisit, exec_modify, leftover]
  omega

theorem define (name : String) {body : List Node} {k : Nat} (hbody : ∀ n ∈ body, Nests level k n) :
    Spends parse? level b (Node.costAll (scriptCost parse? k) body + p) (define name body)
      fun _ => p := by
  intro s h hs _
  refine ⟨nofun, Nat.le_refl _, _, hs.define name hbody, ?_⟩
  simp only [Walk.define, exec_modify, leftover]
  omega

/-- A function that is looked up and entered pays for the walk of its body. -/
theorem call {next : Option Function → Walk β} {r : β → Nat} (name : String)
    (hnone : Spends parse? level b p (next none) r)
    (hentered : ∀ f : Function, f.entered = true → Spends parse? level b p (next (some f)) r)
    (hpending : ∀ (f : Function) (k : Nat), f.entered = false → (∀ n ∈ f.body, Nests level k n) →
      ∃ rest, next (some f) = Walk.enter name >>= rest ∧
        Spends parse? level b (Node.costAll (scriptCost parse? k) f.body + p) (rest ()) r) :
    Spends parse? level b p (lookup name >>= next) r := by
  intro s h hs hb
  have hexec : (lookup name >>= next).exec s = (next (s.functions.get? name)).exec s := rfl
  rw [hexec]
  cases hf : s.functions.get? name with
  | none => exact hnone s h hs hb
  | some f =>
    cases hflag : f.entered with
    | true => exact hentered f hflag s h hs hb
    | false =>
      obtain ⟨k, h', hbody, hs', hcost⟩ := hs.enter hf hflag
      obtain ⟨rest, hnext, hrest⟩ := hpending f k hflag hbody
      obtain ⟨hends, hvisits, h'', hs'', hcost'⟩ :=
        hrest { s with functions := s.functions.enter name } h' hs' (by omega)
      rw [hnext]
      exact ⟨hends, hvisits, h'', hs'', Nat.le_trans hcost' (by simp only; omega)⟩

theorem joinTaint {step : Walk Unit} {q : Unit → Nat} (hstep : Spends parse? level b p step q) :
    Spends parse? level b p (joinTaint step) q := by
  intro s h hs hb
  obtain ⟨hends, hvisits, h', hs', hcost⟩ := hstep s h hs hb
  rw [exec_joinTaint]
  rcases hexec : step.exec s with ⟨fault | _, t⟩
  · simp only [hexec] at hends hvisits hs' hcost
    exact ⟨hends, hvisits, h', hs', hcost⟩
  · simp only [hexec] at hvisits hs' hcost
    exact ⟨nofun, hvisits, h', hs', hcost⟩

theorem recovering {step recover : Walk Unit} {q : Unit → Nat}
    (hstep : Spends parse? level b p step q)
    (hrecover : Spends parse? level b 0 recover fun _ => 0) :
    Spends parse? level b p (recovering step recover) fun _ => 0 := by
  intro s h hs hb
  obtain ⟨hends, hvisits, h', hs', hcost⟩ := hstep s h hs hb
  unfold Walk.recovering
  rw [exec_tryCatch]
  rcases hexec : step.exec s with ⟨fault | _, t⟩
  · simp only [hexec, leftover] at hends hvisits hs' hcost ⊢
    -- What is left at the fault is dropped; recovering costs nothing.
    rw [if_neg fun heq : fault = .exhausted => hends (heq ▸ rfl)]
    obtain ⟨hends', hvisits', h'', hs'', hcost'⟩ := hrecover t h' hs' (by omega)
    exact ⟨hends', by omega, h'', hs'', by omega⟩
  · simp only [hexec, leftover] at hvisits hs' hcost
    exact ⟨nofun, hvisits, h', hs', by simp only [leftover]; omega⟩

end Spends

/-- A plain walk spends nothing. -/
theorem Plain.spends (hwalk : Plain walk) :
    Spends parse? level b p walk fun _ => p := by
  induction hwalk with
  | pure a => exact .pure (fun _ => p) a
  | throw fault h => exact .throw h _
  | bind _ _ ih ihnext => exact .seq ih ihnext
  | resolve name =>
    unfold Walk.resolve
    intro s h hs _
    simp only [exec_bind, exec_get]
    split
    · exact ⟨nofun, Nat.le_refl _, h, hs, Nat.le_refl _⟩
    · exact ⟨nofun, Nat.le_refl _, h, hs, Nat.le_refl _⟩
  | retract name =>
    unfold Walk.retract
    intro s h hs _
    simp only [exec_bind, exec_get]
    split
    · exact ⟨nofun, Nat.le_refl _, h, hs, Nat.le_refl _⟩
    · exact ⟨nofun, Nat.le_refl _, h, hs, Nat.le_add_right _ _⟩
  | declare name => exact .quiet fun _ => ⟨_, rfl, rfl, rfl⟩
  | assignTaint name value => exact .quiet fun _ => ⟨_, rfl, rfl, rfl⟩
  | taint name => exact .quiet fun _ => ⟨_, rfl, rfl, rfl⟩
  | recordAssignment a => exact .quiet fun _ => ⟨_, rfl, rfl, rfl⟩
  | recordUse u => exact .quiet fun _ => ⟨_, rfl, rfl, rfl⟩
  | recordCommand c => exact .quiet fun _ => ⟨_, rfl, rfl, rfl⟩
  | recordSubscript x => exact .quiet fun _ => ⟨_, rfl, rfl, rfl⟩
  | recordInjectable i => exact .quiet fun _ => ⟨_, rfl, rfl, rfl⟩
  | recordPair pair => exact .quiet fun _ => ⟨_, rfl, rfl, rfl⟩
  | recordSimple line text => exact .quiet fun _ => ⟨_, rfl, rfl, rfl⟩
  | unmark line => exact .quiet fun _ => ⟨_, rfl, rfl, rfl⟩

end

end Walk

end ShellAudit
