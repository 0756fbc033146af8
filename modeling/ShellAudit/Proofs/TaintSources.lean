-- SUMMARY: The nodes that names are tainted by, in every text and body that a walk comes to.
import ShellAudit.Proofs.Provenance

/-!
# Sources of taint

A name is tainted by an assignment, by `read`, or by a declaration. The taint of an assignment
before a command is kept under a key of its own. So a name that is tainted after a walk was
tainted before it, or a node that the walk can come to taints it, whatever is called and however
deep texts are nested in texts.
-/

namespace ShellAudit.Walk

/-- The name is tainted by a node that a walk of `root` can come to. -/
def HasSource (parse? : String → Option Node) (known : FunctionTable) (start : Context)
    (root : Node) (name : String) : Prop :=
  ∃ ctx n, Reached parse? known start root ctx n ∧ Taints ctx n name

section

variable {parse? : String → Option Node} {start : Context} {root : Node} {s : State}

/-- What is tainted was tainted in the first state or has a source, and the functions are those
that a walk from it can come to. -/
structure Sourced (parse? : String → Option Node) (start : Context) (root : Node) (s t : State) :
    Prop where
  tainted : ∀ name ∈ t.tainted, name ∈ s.tainted ∨ HasSource parse? s.functions start root name
  functions : Familiar parse? s.functions start root t.functions

theorem sourced_upheld :
    UpheldByVisits (fun _ _ => True) (fun _ => True) (Sourced parse? start root s)
      (Reached parse? s.functions start root) (RunsAt parse? s.functions start root) where
  child := by
    rintro ctx n c ⟨jumps, hn⟩ hc
    exact ⟨jumps, .child hn hc⟩
  fault _ _ := trivial
  taint := by
    intro t u v ht hu hrecords _ htainted
    refine ⟨fun name hname => ?_, State.functions_eq hrecords ▸ hu.functions⟩
    rcases htainted name hname with h | h | hsource
    · exact ht.tainted name h
    · exact hu.tainted name h
    · exact .inr hsource
  lookup _ _ ht := ⟨ht.tainted, ht.functions⟩
  itself _ := trivial
  meaning _ _ := trivial
  record {_ _ t e} _ _ ht := by
    refine ⟨?_, t.functions_add e ▸ ht.functions⟩
    cases e <;> exact ht.tainted
  script := by
    rintro ctx n script ⟨jumps, hn⟩ hruns
    exact ⟨jumps, ctx, n, hn, hruns, rfl⟩
  define hn hname ht := { ht with functions := ht.functions.define hn hname }
  enter _ _ ht := { ht with functions := ht.functions.enter _ }
  body hn hcalls ht hf := ht.functions.body hn hcalls hf

/-- Every name that is tainted when a walk ends was tainted before, or it has a source. -/
theorem visit_tainted_hasSource (budget : Nat) (runs : Bool) {name : String}
    (h : name ∈ ((visit (follow parse? budget) start runs root).exec s).2.tainted) :
    name ∈ s.tainted ∨ HasSource parse? s.functions start root name := by
  have begun : Sourced parse? start root s s := ⟨fun _ => .inl, .refl s.functions⟩
  have hvisit := ensures_visit_reached sourced_upheld
    (.inl fun _ _ ht => ⟨ht.tainted, ht.functions⟩) (fun _ _ ht => ⟨ht.tainted, ht.functions⟩)
    (fun _ ht => ⟨ht.tainted, ht.functions⟩) budget runs s begun
  exact hvisit.1.tainted name h

end

end ShellAudit.Walk
