-- SUMMARY: One walk of a loop stands for any number of runs if it does for none and for two.
import ShellAudit.Proofs.Branches
import ShellAudit.Proofs.NonInterference

/-!
# Loops

A loop is walked as if its children ran once, one after the other. They may run any
number of times: what they taint in one run is there in the next one, and what they
clean is not cleaned if they do not run at all. More taint before a run leaves no less
behind it, so it is enough to look at no run and at two: if one walk covers both, it
covers every number of runs.
-/

namespace ShellAudit

/-- Kinds of nodes whose children may run any number of times. -/
def Kind.isLoop (kind : Kind) : Bool :=
  kind = .other "while_statement" ∨ kind = .other "for_statement" ∨
    kind = .other "c_style_for_statement"

namespace Walk

/-- Walks so many times, one after the other. -/
def times (walk : Walk Unit) : Nat → Walk Unit
  | 0 => pure ()
  | k + 1 => do
    times walk k
    walk

/-- A loop is walked as a sequence of its children. -/
theorem visit_loop {jump : Jump → Walk Unit} {ctx : Context} {runs : Bool} {n : Node}
    (hkind : n.kind.isLoop = true) :
    visit jump ctx runs n = (do
      countVisit
      visitAll jump ctx n.kind true n.children) := by
  obtain ⟨kind, text, row, column, endColumn, children⟩ := n
  simp only [Kind.isLoop, decide_eq_true_eq] at hkind
  rcases hkind with rfl | rfl | rfl <;> rfl

/-- A walk that ends in one way or another whatever is tainted, and leaves no less tainted
if more is tainted before it. -/
structure Monotone (walk : Walk Unit) : Prop where
  uniform : Uniform walk walk
  covered : Covered (· ⊆ ·) walk walk anyResult

namespace Monotone

variable {walk : Walk Unit} {s t : State}

/-- A walk that comes to its end from one calm state comes to its end from every one. -/
theorem ends (monotone : Monotone walk) (hs : Calm s) (ht : Calm t)
    (hok : (walk.exec s).1 = .ok ()) :
    ∃ u, walk.exec t = (.ok (), u) ∧ Calm u := by
  -- The first state with the taint of both is above the second one.
  let above : State := { s with tainted := s.tainted.union t.tainted }
  have habove : Calm above := ⟨hs.functions, hs.scope⟩
  have hsame := (monotone.uniform s above
    (.intro s s.notes (NameSet.subset_union_left s.tainted t.tainted))).1
  rcases hexec : walk.exec above with ⟨fault | _, v⟩
  · rw [hok, hexec] at hsame
    cases hsame
  · obtain ⟨_, u, hu, -, hpaired⟩ := monotone.covered t above
      ⟨ht, habove, NameSet.subset_union_right s.tainted t.tainted⟩ () v hexec
    exact ⟨u, hu, hpaired.calm'⟩

theorem tainted_subset (monotone : Monotone walk) (hs : Calm s) (ht : Calm t)
    (hsub : t.tainted ⊆ s.tainted) (hok : (walk.exec s).1 = .ok ()) :
    (walk.exec t).2.tainted ⊆ (walk.exec s).2.tainted := by
  rcases hexec : walk.exec s with ⟨fault | _, u⟩
  · rw [hexec] at hok
    cases hok
  · obtain ⟨_, v, hv, -, hpaired⟩ := monotone.covered t s ⟨ht, hs, hsub⟩ () u hexec
    rw [hv]
    exact hpaired.tainted

/-- Every run of a walk comes to its end, and the next one starts where it ends. -/
theorem exec_times (monotone : Monotone walk) (hs : Calm s) (hok : (walk.exec s).1 = .ok ())
    (k : Nat) : ((times walk k).exec s).1 = .ok () ∧ Calm ((times walk k).exec s).2 ∧
      (times walk (k + 1)).exec s = walk.exec ((times walk k).exec s).2 := by
  have next {k : Nat} (h : ((times walk k).exec s).1 = .ok ()) :
      (times walk (k + 1)).exec s = walk.exec ((times walk k).exec s).2 := by
    rw [times, exec_bind]
    rcases hexec : (times walk k).exec s with ⟨fault | _, t⟩
    · rw [hexec] at h
      cases h
    · rfl
  induction k with
  | zero => exact ⟨rfl, hs, next rfl⟩
  | succ k ih =>
    obtain ⟨hends, hcalm, hnext⟩ := ih
    obtain ⟨u, hu, hcalm'⟩ := monotone.ends hs hcalm hok
    have hsucc : (times walk (k + 1)).exec s = (.ok (), u) := hnext.trans hu
    have hends' : ((times walk (k + 1)).exec s).1 = .ok () := by rw [hsucc]
    exact ⟨hends', by rw [hsucc]; exact hcalm', next hends'⟩

/-- If two runs taint no more than one, no number of runs from the first on does. -/
theorem tainted_times_subset (monotone : Monotone walk) (hs : Calm s)
    (hok : (walk.exec s).1 = .ok ())
    (htwice : ((times walk 2).exec s).2.tainted ⊆ ((times walk 1).exec s).2.tainted) (k : Nat) :
    ((times walk (k + 1)).exec s).2.tainted ⊆ ((times walk 1).exec s).2.tainted := by
  have runs := monotone.exec_times hs hok
  induction k with
  | zero => exact NameSet.Subset.refl _
  | succ k ih =>
    have hfirst : (walk.exec ((times walk 1).exec s).2).1 = .ok () := by
      rw [← (runs 1).2.2]
      exact (runs 2).1
    have hstep := monotone.tainted_subset (runs 1).2.1 (runs (k + 1)).2.1 ih hfirst
    rw [← (runs 1).2.2, ← (runs (k + 1)).2.2] at hstep
    exact NameSet.Subset.trans hstep htwice

end Monotone

/-- In a loop that defines no functions, declares no local variables, runs no shell and has
no dotted names, the children come to their end any number of times if they do once. The
walk of the loop taints what one run of them taints. It covers every number of runs if and
only if it covers no run at all and two of them. -/
theorem visit_covers_runs_iff (parse? : String → Option Node) (budget : Nat) (ctx : Context)
    (runs : Bool) {n : Node} (hkind : n.kind.isLoop = true) (hdirect : n.Every Node.Direct)
    {s : State} (hfunctions : s.functions = []) (hscope : ∀ name ∈ s.scope, '.' ∉ name.toList)
    (hok : ((visit (follow parse? budget) ctx runs n).exec s).1 = .ok ()) :
    let once := ((visit (follow parse? budget) ctx runs n).exec s).2.tainted
    let after (k : Nat) :=
      (times (visitAll (follow parse? budget) ctx n.kind true n.children) k).exec s
    (∀ k, (after k).1 = .ok ()) ∧ (∀ x, x ∈ (after 1).2.tainted ↔ x ∈ once) ∧
      ((∀ k, (after k).2.tainted ⊆ once) ↔ s.tainted ⊆ once ∧ (after 2).2.tainted ⊆ once) := by
  intro once after
  let walk := visitAll (follow parse? budget) ctx n.kind true n.children
  let counted : State := { s with visits := s.visits + 1 }
  have monotone : Monotone walk := by
    refine ⟨?_, .visitAll_of_visit (.refl_of_pruned fun c _ => .refl c) fun c hc c' runs hc' => ?_⟩
    · exact (Composed.visitAll (follow_uniform parse? budget) ctx _ _ _).uniform id
    · exact .visit hc' ((Node.every_iff.1 hdirect).2 c hc)
  have hvisit : (visit (follow parse? budget) ctx runs n).exec s = walk.exec counted := by
    rw [visit_loop hkind]
    rfl
  have hcalm : Calm s := ⟨hfunctions, hscope⟩
  have hcounted : Calm counted := ⟨hfunctions, hscope⟩
  rw [hvisit] at hok
  have hends : (walk.exec s).1 = .ok () := by
    obtain ⟨u, hu, -⟩ := monotone.ends hcounted hcalm hok
    rw [hu]
  have hruns := monotone.exec_times hcalm hends
  have hfirst : after 1 = walk.exec s := (hruns 0).2.2
  have honce (x : String) : x ∈ (after 1).2.tainted ↔ x ∈ once := by
    rw [hfirst, show once = (walk.exec counted).2.tainted by rw [← hvisit]]
    exact ⟨monotone.tainted_subset hcounted hcalm (NameSet.Subset.refl _) hok x,
      monotone.tainted_subset hcalm hcounted (NameSet.Subset.refl _) hends x⟩
  refine ⟨fun k => (hruns k).1, honce, fun h => ⟨h 0, h 2⟩, ?_⟩
  rintro ⟨hnone, htwice⟩ k
  cases k with
  | zero => exact hnone
  | succ k =>
    intro x hx
    refine (honce x).1 (monotone.tainted_times_subset hcalm hends (fun y hy => ?_) k x hx)
    exact (honce y).2 (htwice y hy)

/-- A loop over a condition and a body, as it stands in the first line of a script. -/
def whileLoop (written : String) (condition : Node) (body : List Node) : Node :=
  { kind := .other "while_statement", text := some written, row := 0, column := 0
    endColumn := written.length
    children := [condition, ⟨.other "do_group", none, 0, 0, written.length, body⟩] }

/-- The loop `while read x; do y=$x; done`. -/
def readingLoop : Node :=
  whileLoop "while read x; do y=$x; done"
    ⟨.command, some "read x", 0, 6, 12,
      [⟨.commandName, some "read", 0, 6, 10, [⟨.word, some "read", 0, 6, 10, []⟩]⟩,
        ⟨.word, some "x", 0, 11, 12, []⟩]⟩
    [⟨.variableAssignment, some "y=$x", 0, 17, 21,
      [⟨.variableName, some "y", 0, 17, 18, []⟩, ⟨.simpleExpansion, some "$x", 0, 19, 21, []⟩]⟩]

theorem visit_covers_runs_iff_readingLoop :
    let once := ((visit (follow (fun _ => none) 0) {} false readingLoop).exec {}).2.tainted
    let after (k : Nat) := (times (visitAll (follow (fun _ => none) 0) {}
      (.other "while_statement") true readingLoop.children) k).exec {}
    once.names = ["x", "y"] ∧ ∀ k, (after k).1 = .ok () ∧ (after k).2.tainted ⊆ once := by
  intro once after
  have hscope (name : String) (h : name ∈ ({} : State).scope) : '.' ∉ name.toList :=
    absurd h (NameSet.not_mem_empty name)
  obtain ⟨hends, -, hcovers⟩ := visit_covers_runs_iff (fun _ => none) 0 {} false
    (by decide : readingLoop.kind.isLoop = true) (by decide : readingLoop.Every Node.Direct)
    (rfl : ({} : State).functions = []) hscope rfl
  have honce : once.names = ["x", "y"] := by decide +kernel
  have htwice : (after 2).2.tainted.names = once.names := by decide +kernel
  have hsubset : (after 2).2.tainted ⊆ once := by
    intro x hx
    rwa [NameSet.mem_def, htwice] at hx
  refine ⟨honce, fun k => ⟨hends k, hcovers.2 ⟨?_, hsubset⟩ k⟩⟩
  exact fun x hx => absurd hx (NameSet.not_mem_empty x)

/-- The loop `while :; do y=$x; x=$1; done`. -/
def carryingLoop : Node :=
  whileLoop "while :; do y=$x; x=$1; done"
    ⟨.command, some ":", 0, 6, 7,
      [⟨.commandName, some ":", 0, 6, 7, [⟨.word, some ":", 0, 6, 7, []⟩]⟩]⟩
    [⟨.variableAssignment, some "y=$x", 0, 12, 16,
        [⟨.variableName, some "y", 0, 12, 13, []⟩, ⟨.simpleExpansion, some "$x", 0, 14, 16, []⟩]⟩,
      ⟨.variableAssignment, some "x=$1", 0, 18, 22,
        [⟨.variableName, some "x", 0, 18, 19, []⟩, ⟨.simpleExpansion, some "$1", 0, 20, 22, []⟩]⟩]

/-- The loop `while false; do x=1; done`. -/
def cleaningLoop : Node :=
  whileLoop "while false; do x=1; done"
    ⟨.command, some "false", 0, 6, 11,
      [⟨.commandName, some "false", 0, 6, 11, [⟨.word, some "false", 0, 6, 11, []⟩]⟩]⟩
    [⟨.variableAssignment, some "x=1", 0, 16, 19,
      [⟨.variableName, some "x", 0, 16, 17, []⟩, ⟨.number, some "1", 0, 18, 19, []⟩]⟩]

/-- The walk of a loop misses what is tainted by the second run only, and what was tainted
before and is cleaned by a body that need not run. -/
theorem visit_misses_runs :
    let once (n : Node) (tainted : NameSet) :=
      ((visit (follow (fun _ => none) 0) {} false n).exec { tainted := tainted }).2.tainted.names
    let after (k : Nat) (n : Node) (tainted : NameSet) :=
      ((times (visitAll (follow (fun _ => none) 0) {} n.kind true n.children) k).exec
        { tainted := tainted }).2.tainted.names
    once carryingLoop ∅ = ["x"] ∧ after 2 carryingLoop ∅ = ["x", "y"] ∧
      once cleaningLoop (.ofList ["x"]) = [] ∧ after 0 cleaningLoop (.ofList ["x"]) = ["x"] := by
  decide +kernel

end Walk

end ShellAudit
