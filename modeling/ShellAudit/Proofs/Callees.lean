-- SUMMARY: Which functions may have been entered when a walk comes to a node.
import ShellAudit.Proofs.Locals
import ShellAudit.Proofs.WalkedOnce

/-!
# Callees

A function is entered by a command that calls it, and the body of a function stands
before every call that can come to it. So whatever has been entered when a walk comes to
a node is called by a node that stands before it, unless a text has been run: a text may
call anything.
-/

namespace ShellAudit

namespace Node

theorem mem_all_of_below {n m : Node} (h : n.Below m) : m ∈ n.all := by
  have children {ns : List Node} {c : Node} (hc : c ∈ ns) : c.all ⊆ allOf ns := by
    induction ns with
    | nil => cases hc
    | cons k ks ih =>
      rw [allOf]
      rcases List.mem_cons.1 hc with rfl | hc
      · exact List.subset_append_left _ _
      · exact List.subset_append_of_subset_right _ (ih hc)
  induction h with
  | self n =>
    rw [all_eq]
    exact List.mem_cons_self
  | child hc _ ih =>
    rw [all_eq]
    exact List.mem_cons_of_mem _ (children hc ih)

/-- The node runs no text, and what it calls has `p`. -/
def Calls (p : String → Prop) (n : Node) : Prop :=
  n.RunsNoText ∧ ∀ name, n.calls? = some name → p name

/-- The known functions that a text below the node may call, if there is such a text. -/
def textCallees (known : List String) (n : Node) : List String :=
  if n.Every RunsNoText then [] else known

/-- The names that a walk of the node may call. -/
def callees (known : List String) (n : Node) : List String :=
  n.all.filterMap calls? ++ n.textCallees known

theorem every_calls {n : Node} (h : n.Every RunsNoText) (known : List String) :
    n.Every (Calls (· ∈ n.callees known)) := by
  have below (m : Node) (hm : n.Below m) : m.Every (Calls (· ∈ n.callees known)) := by
    induction m using Node.induction with
    | step m ih =>
      refine every_iff.2 ⟨⟨h.below hm, fun name hname => ?_⟩, fun c hc => ih c hc (hm.step hc)⟩
      exact List.mem_append_left _ (List.mem_filterMap.2 ⟨m, mem_all_of_below hm, hname⟩)
  exact below n (.self n)

end Node

/-- The functions that have been entered are among the names, and the bodies of all
functions call no others. -/
structure FunctionTable.Accounted (called : List String) (table : FunctionTable) : Prop where
  entered {f : Function} : f ∈ table → f.entered = true → f.name ∈ called
  bodies : table.Bodies (Node.Calls (· ∈ called))

theorem FunctionTable.Accounted.mono {called called' : List String} {table : FunctionTable}
    (h : table.Accounted called) (hsub : called ⊆ called') : table.Accounted called' where
  entered hf hentered := hsub (h.entered hf hentered)
  bodies f hf n hn := (h.bodies f hf n hn).imp fun _ hm =>
    ⟨hm.1, fun name hname => hsub (hm.2 name hname)⟩

namespace Walk

open FunctionTable

theorem Ensures.kept {E : Fault → Prop} {I : State → Prop} {α : Type} {walk : Walk α}
    {Q : α → Prop} {s t : State} {result : Except Fault α} (h : Ensures E I walk Q) (hs : I s)
    (hexec : walk.exec s = (result, t)) : I t := by
  have ht := (h s hs).1
  rwa [hexec] at ht

theorem accounting_upheld (called : List String) :
    UpheldByVisits (fun _ _ => True) (fun _ => True) (fun s => s.functions.Accounted called)
      (fun _ n => n.Every (Node.Calls (· ∈ called))) fun _ _ => False where
  child hn hc := (Node.every_iff.1 hn).2 _ hc
  fault _ _ := trivial
  taint _ ht hrecords _ _ := State.functions_eq hrecords ▸ ht
  lookup _ _ hs := hs
  itself _ := trivial
  meaning _ _ := trivial
  record {_ _ s e} _ _ hs := (s.functions_add e).symm ▸ hs
  script := by
    rintro ctx n script hn ⟨hkind, hshell, hscript⟩
    rw [(Node.every_iff.1 hn).1.1 hkind hshell] at hscript
    cases hscript
  define := by
    rintro ctx n s name hn - ⟨hentered, hbodies⟩
    refine ⟨fun hf => ?_, hbodies.define hn name⟩
    rcases mem_define hf with hf | rfl
    · exact hentered hf
    · exact fun h => absurd h Bool.false_ne_true
  enter := by
    rintro ctx n s name hn hname ⟨hentered, hbodies⟩
    refine ⟨fun {f} hf h => ?_, hbodies.enter name⟩
    obtain ⟨g, hg, rfl⟩ := List.mem_map.1 hf
    split at h
    · rename_i hsame
      rw [if_pos hsame, show g.name = name from hsame]
      exact (Node.every_iff.1 hn).1.2 name hname
    · rename_i hother
      rw [if_neg hother]
      exact hentered hg h
  body _ _ hs hf := hs.bodies _ (List.mem_of_find?_eq_some hf)

section

variable (parse? : String → Option Node) (budget : Nat) (called : List String)

theorem accounted_localDeclaration {jump : Jump → Walk Unit} {ctx : Context} {n : Node}
    (hn : n.Every (Node.Calls (· ∈ called))) (hkind : n.kind = .declarationCommand) :
    Ensures (fun _ => True) (fun s => s.functions.Accounted called) (localDeclaration jump ctx n)
      anything :=
  (accounting_upheld called).ensures_localDeclaration_of_unscoped (fun _ _ hs => hs)
    (fun _ => trivial) (fun _ _ h => h.elim) hn hkind

theorem accounted_follow (jump : Jump)
    (hjump : Admitted (fun _ n => n.Every (Node.Calls (· ∈ called))) (fun _ _ => False) jump) :
    Ensures (fun _ => True) (fun s => s.functions.Accounted called) (follow parse? budget jump)
      anything :=
  (accounting_upheld called).ensures_follow trivial
    (fun _ hn hkind _ => accounted_localDeclaration called hn hkind) (fun h => h.elim)
    (fun h => h.elim) (fun h => h.elim) budget jump hjump

end

/-! ## What is called before a node -/

/-- Every function that has been entered, or that a body calls, is among the names; in case
of doubt, every known function is. -/
def Accounted (known called : List String) (s : State) : Prop :=
  known ⊆ called ∨ s.functions.Accounted called

section

variable {known called : List String} {ctx : Context} {n : Node} {s t : State}

/-- A known function that has not been called has not been entered. -/
theorem Accounted.not_entered {name : String} {f : Function} (h : Accounted known called s)
    (hknown : name ∈ known) (hcalled : name ∉ called) (hf : s.functions.get? name = some f) :
    f.entered = false := by
  rcases h with hall | hs
  · exact absurd (hall hknown) hcalled
  · have hname : f.name = name := by simpa using List.find?_some hf
    rw [Bool.eq_false_iff]
    exact fun hentered => hcalled (hname ▸ hs.entered (List.mem_of_find?_eq_some hf) hentered)

theorem Accounted.of_keeps {α : Type} {walk : Walk α} {result : Except Fault α}
    (h : Accounted known called s) (hkeeps : Keeps [.functions] walk)
    (hexec : walk.exec s = (result, t)) : Accounted known called t := by
  have hfunctions : (walk.exec s).2.functions = s.functions := hkeeps s .functions (by simp)
  rw [hexec] at hfunctions
  exact h.imp_right fun hs => hfunctions.symm ▸ hs

/-- What is called below a node is added to the names. Only if no text is run there has it
to be shown that this is all. -/
theorem Accounted.add (h : Accounted known called s)
    (hadded : n.Every (Node.Calls (· ∈ called ++ n.callees known)) →
      s.functions.Accounted (called ++ n.callees known) →
        t.functions.Accounted (called ++ n.callees known)) :
    Accounted known (called ++ n.callees known) t := by
  rcases h with hknown | hs
  · exact .inl (List.subset_append_of_subset_left _ hknown)
  · by_cases htexts : n.Every Node.RunsNoText
    · refine .inr (hadded ?_ (hs.mono (List.subset_append_left _ _)))
      exact (n.every_calls htexts known).imp fun m hm =>
        ⟨hm.1, fun name hname => List.mem_append_right called (hm.2 name hname)⟩
    · refine .inl fun name hname => List.mem_append_right _ (List.mem_append_right _ ?_)
      rwa [Node.textCallees, if_neg htexts]

theorem accounted_visit {parse? : String → Option Node} {budget : Nat} {runs : Bool}
    (h : Accounted known called s)
    (hexec : (visit (follow parse? budget) ctx runs n).exec s = (.ok (), t)) :
    Accounted known (called ++ n.callees known) t := by
  refine h.add fun hn hs => ?_
  have hvisit : Ensures (fun _ => True) _ (visit (follow parse? budget) ctx runs n) anything :=
    (accounting_upheld _).ensures_visit (accounted_follow parse? budget _) hn
      (fun hn hkind _ => accounted_localDeclaration _ hn hkind) runs
  exact hvisit.kept hs hexec

/-- A call of a function that has not been entered. -/
theorem accounted_call {parse? : String → Option Node} {budget : Nat} {name : String}
    {f : Function} (h : Accounted known called s) (hname : n.calls? = some name)
    (hf : s.functions.get? name = some f)
    (hexec : (do
      enter name
      follow parse? budget (.body f.body { ctx with function := name })).exec s = (.ok (), t)) :
    Accounted known (called ++ n.callees known) t := by
  refine h.add fun hn hs => ?_
  have henter : Ensures (fun _ => True)
      (fun s => s.functions.Accounted (called ++ n.callees known)) (enter name) anything :=
    .modify fun s hs => @UpheldByVisits.enter _ _ _ _ _ (accounting_upheld _) ctx n s name hn hname hs
  have hbody := accounted_follow parse? budget _ (.body f.body { ctx with function := name })
    (hs.bodies f (List.mem_of_find?_eq_some hf))
  exact (henter.bind fun _ _ => hbody).kept hs hexec

/-- Reading values changes no function, unless it runs a text. -/
theorem tabled_upheld (table : FunctionTable) :
    Upheld (fun _ _ => True) (fun _ => True) (fun s => s.functions = table)
      (fun _ n => n.Every Node.RunsNoText) fun _ _ => False where
  child hn hc := (Node.every_iff.1 hn).2 _ hc
  fault _ _ := trivial
  taint _ ht hrecords _ _ := (State.functions_eq hrecords).trans ht
  lookup _ _ hs := hs
  itself _ := trivial
  meaning _ _ := trivial
  record {_ _ s e} _ _ hs := (s.functions_add e).trans hs
  script := by
    rintro ctx n script hn ⟨hkind, hshell, hscript⟩
    rw [(Node.every_iff.1 hn).1 hkind hshell] at hscript
    cases hscript

theorem accounted_command {jump : Jump → Walk Unit} {c : Option Command}
    (h : Accounted known called s) (hkind : n.kind = .command)
    (hexec : (command jump ctx n).exec s = (.ok c, t)) :
    Accounted known (called ++ n.textCallees known) t := by
  unfold Node.textCallees
  split
  · rename_i htexts
    have hcommand : Ensures (fun _ => True) _ (command jump ctx n) anything :=
      (tabled_upheld s.functions).ensures_command (fun _ _ h => h.elim) htexts hkind
    rw [List.append_nil]
    exact h.imp_right fun hs => (hcommand.kept rfl hexec).symm ▸ hs
  · exact .inl (List.subset_append_right _ _)

end

end Walk

end ShellAudit
