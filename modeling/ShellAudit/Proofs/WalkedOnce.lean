-- SUMMARY: Whatever calls whatever, no node of a script is walked twice and no expansion is recorded twice.
import Mathlib.Data.List.Perm.Subperm
import ShellAudit.Proofs.Frames
import ShellAudit.Proofs.Positions
import ShellAudit.Proofs.Termination
import ShellAudit.Proofs.Trail

/-!
# Walked once

The history of a tree lists what can happen to its nodes: each is visited, a definition is
also noted and entered, and an expansion is used. A walk consumes the history of the nodes
that it is given. It may put a part of it aside: what can happen in the body of a function
is kept with the function until the function is entered. Nothing is ever put back, so what
happens in a walk happens no more often than the history of its tree says.
-/

namespace ShellAudit

namespace Node

mutual

/-- The node and all nodes below it, in the order of the text. -/
def all : Node → List Node
  | node@⟨_, _, _, _, _, children⟩ => node :: allOf children

def allOf : List Node → List Node
  | [] => []
  | n :: ns => all n ++ allOf ns

end

theorem all_eq (n : Node) : n.all = n :: allOf n.children := by
  obtain ⟨kind, text, row, column, endColumn, children⟩ := n
  rw [all]

/-- What an expansion is recorded as in a script. -/
def use? (n : Node) : Option Use :=
  if n.kind.isExpansion then n.text.map fun written => ⟨written, n.row, n.column⟩ else none

theorem use?_eq_some {n : Node} {u : Use} :
    n.use? = some u ↔
      n.kind.isExpansion = true ∧
        ∃ written, n.text = some written ∧ ⟨written, n.row, n.column⟩ = u := by
  unfold use?
  split
  · rename_i h
    rw [Option.map_eq_some_iff, and_iff_right h]
  · rename_i h
    simp [h]

/-- What can happen to a node when it is visited. -/
def effects (n : Node) : List Walk.Event :=
  (if n.kind = .functionDefinition then [.defined n, .entered n.children] else [])
    ++ n.use?.toList.map .used

/-- What can happen to a node. -/
def events (n : Node) : List Walk.Event := .visited n :: n.effects

/-- What can happen to the nodes of a tree. -/
def history (n : Node) : List Walk.Event := n.all.flatMap events

def historyOf (ns : List Node) : List Walk.Event := (allOf ns).flatMap events

theorem history_eq (n : Node) :
    n.history = [.visited n] ++ (n.effects ++ historyOf n.children) := by
  rw [history, all_eq, List.flatMap_cons, historyOf, events, List.cons_append,
    List.singleton_append]

theorem historyOf_cons (n : Node) (ns : List Node) :
    historyOf (n :: ns) = n.history ++ historyOf ns := by
  rw [historyOf, allOf, List.flatMap_append, history, historyOf]

end Node

/-- What is kept with a function: that it is entered, and what can happen in its body. -/
def Function.pending (f : Function) : List Walk.Event :=
  if f.entered then [] else .entered f.body :: Node.historyOf f.body

def FunctionTable.pending (table : FunctionTable) : List Walk.Event :=
  table.flatMap Function.pending

namespace Walk

variable {p : Event → Bool}

/-! ## Functions -/

section Functions

variable {table : FunctionTable} {name : String} {f : Function}

/-- Where names are there once, a change of one function changes what is kept with it only. -/
theorem countP_pending_change (hnames : table.names.Nodup) (hf : table.get? name = some f)
    (change : Function → Function) :
    (FunctionTable.pending (table.map fun g => if g.name = name then change g else g)).countP p
        + f.pending.countP p =
      table.pending.countP p + (change f).pending.countP p := by
  induction table with
  | nil => cases hf
  | cons g table ih =>
    obtain ⟨hother, hnames⟩ := List.nodup_cons.1 hnames
    simp only [FunctionTable.pending, List.map_cons, List.flatMap_cons, List.countP_append]
    by_cases hg : g.name = name
    · simp only [FunctionTable.get?, List.find?_cons, hg, beq_self_eq_true] at hf
      cases hf
      have hrest : (table.map fun g => if g.name = name then change g else g) = table := by
        have hne (h : Function) (hmem : h ∈ table) : h.name ≠ name := by
          rintro rfl
          exact hother (List.mem_map.2 ⟨h, hmem, hg.symm⟩)
        calc (table.map fun g => if g.name = name then change g else g)
            = table.map id := List.map_congr_left fun h hmem => if_neg (hne h hmem)
          _ = table := List.map_id table
      rw [if_pos hg, hrest]
      omega
    · have htail : FunctionTable.get? table name = some f := by
        simpa [FunctionTable.get?, List.find?_cons, hg] using hf
      have := ih hnames htail
      simp only [FunctionTable.pending] at this
      rw [if_neg hg]
      omega

theorem countP_pending_define (hnames : table.names.Nodup) (name : String) (body : List Node) :
    (table.define name body).pending.countP p ≤
      table.pending.countP p + (Function.pending ⟨name, body, false⟩).countP p := by
  unfold FunctionTable.define
  split
  · rename_i hany
    obtain ⟨f, hf⟩ : ∃ f, table.get? name = some f :=
      Option.isSome_iff_exists.1 (List.find?_isSome.2 (by simpa using hany))
    have := countP_pending_change (p := p) hnames hf fun _ => ⟨name, body, false⟩
    omega
  · simp [FunctionTable.pending, List.flatMap_append]

theorem countP_pending_enter (hnames : table.names.Nodup) (hf : table.get? name = some f)
    (hentered : f.entered = false) :
    (table.enter name).pending.countP p +
        ([Event.entered f.body].countP p + (Node.historyOf f.body).countP p) =
      table.pending.countP p := by
  have hpending : f.pending = [Event.entered f.body] ++ Node.historyOf f.body := by
    simp [Function.pending, hentered]
  have := countP_pending_change (p := p) hnames hf fun g => { g with entered := true }
  rw [hpending, List.countP_append] at this
  simpa [FunctionTable.enter, Function.pending] using this

theorem nodup_names_define (hnames : table.names.Nodup) (name : String) (body : List Node) :
    (table.define name body).names.Nodup := by
  rw [FunctionTable.names_define]
  split
  · exact hnames
  · rename_i hnew
    refine List.nodup_append.2 ⟨hnames, by simp, fun other hother _ hname => ?_⟩
    rintro rfl
    exact hnew (List.mem_singleton.1 hname ▸ hother)

end Functions

/-! ## What trails consume -/

/-- What has happened to expansions, and what is kept with functions. -/
def State.events (s : State) : List Event := s.used.map .used ++ s.functions.pending

variable (p) in
/-- A trail has made do with `before` events of kind `p`, and with what was kept with
functions. If it has ended without a fault, `after` of them are left. Each visit that was
counted has been told. -/
structure Consumed {α : Type} (before after : Nat) (s : State)
    (outcome : (Except Fault α × State) × List Event) : Prop where
  names : outcome.1.2.functions.names.Nodup
  visits : outcome.1.2.visits = s.visits + (outcome.2.filterMap Event.visited?).length
  events : outcome.2.countP p + outcome.1.2.events.countP p + leftover (fun _ => after) outcome.1.1
    ≤ s.events.countP p + before

variable (p) in
def Consumes {α : Type} (before : Nat) (trail : Trail α) (after : Nat) : Prop :=
  ∀ s, s.functions.names.Nodup → Consumed p before after s (trail s)

namespace Consumes

variable {α β : Type} {b c d : Nat}

theorem bind {trail : Trail α} {next : α → Trail β} (h : Consumes p b trail c)
    (hnext : ∀ a, Consumes p c (next a) d) : Consumes p b (trail >>= next) d := by
  intro s hs
  obtain ⟨hnames, hvisits, hevents⟩ := h s hs
  rw [Trail.bind_apply]
  rcases hrun : trail s with ⟨⟨fault | a, t⟩, events⟩ <;> rw [hrun] at hnames hvisits hevents
  · exact ⟨hnames, hvisits, hevents⟩
  · obtain ⟨hnames', hvisits', hevents'⟩ := hnext a t hnames
    simp only [leftover] at hvisits hevents
    refine ⟨hnames', ?_, ?_⟩
    · simp only [List.filterMap_append, List.length_append]
      omega
    · simp only [List.countP_append]
      omega

/-- More at the start is more at the end, and some of it may be dropped. -/
theorem adjust {trail : Trail α} {b' c' : Nat} (h : Consumes p b trail c) (hb : b ≤ b')
    (hc : c' + b ≤ c + b') : Consumes p b' trail c' := by
  intro s hs
  obtain ⟨hnames, hvisits, hevents⟩ := h s hs
  refine ⟨hnames, hvisits, ?_⟩
  cases hresult : (trail s).1.1 with
  | ok a =>
    simp only [hresult, leftover] at hevents ⊢
    omega
  | error fault =>
    simp only [hresult, leftover] at hevents ⊢
    omega

theorem tell {e : Event} (he : e.visited? = none) :
    Consumes p ([e].countP p + b) (Trail.tell e) b := by
  intro s hs
  refine ⟨hs, ?_, ?_⟩
  · simp only [Trail.tell, List.filterMap_cons_none he, List.filterMap_nil, List.length_nil,
      Nat.add_zero]
  · simp only [Trail.tell, leftover]
    omega

theorem visited {next : Trail α} (n : Node) (h : Consumes p b next d) :
    Consumes p ([Event.visited n].countP p + b)
      (Trail.tell (.visited n) >>= fun _ => Trail.silent countVisit >>= fun _ => next) d := by
  intro s hs
  have hrun : (Trail.tell (.visited n) >>= fun _ => Trail.silent countVisit >>= fun _ => next) s =
      ((next { s with visits := s.visits + 1 }).1,
        [.visited n] ++ (next { s with visits := s.visits + 1 }).2) := rfl
  obtain ⟨hnames, hvisits, hevents⟩ := h { s with visits := s.visits + 1 } hs
  rw [hrun]
  refine ⟨hnames, ?_, ?_⟩
  · simp only [List.filterMap_append, List.length_append, hvisits]
    exact Nat.add_assoc _ 1 _
  · simp only [List.countP_append, State.events] at hevents ⊢
    omega

/-- A walk that records no use, changes no function and counts no visit consumes nothing. -/
theorem kept {walk : Walk α} (h : Keeps [.used, .functions, .visits] walk) :
    Consumes p b (.silent walk) b := by
  intro s hs
  have hused : (walk.exec s).2.used = s.used := h s .used (by simp)
  have hfunctions : (walk.exec s).2.functions = s.functions := h s .functions (by simp)
  have hvisits : (walk.exec s).2.visits = s.visits := h s .visits (by simp)
  refine ⟨?_, hvisits, ?_⟩
  · simpa only [Trail.silent, hfunctions] using hs
  · simp only [Trail.silent, State.events, hused, hfunctions, List.countP_nil]
    cases (walk.exec s).1 with
    | ok a => simp only [leftover]; omega
    | error fault => simp only [leftover]; omega

theorem pure (a : α) : Consumes p b (pure a : Trail α) b := .kept (.pure a)

theorem recordUse (u : Use) :
    Consumes p ([Event.used u].countP p + b) (.silent (recordUse u)) b := by
  intro s hs
  refine ⟨hs, rfl, ?_⟩
  simp only [Trail.silent, Walk.recordUse, exec_modify, State.events, leftover, List.map_append,
    List.map_cons, List.map_nil, List.countP_append, List.countP_nil]
  omega

theorem define (name : String) (body : List Node) :
    Consumes p ([Event.entered body].countP p + (Node.historyOf body).countP p + b)
      (.silent (define name body)) b := by
  intro s hs
  refine ⟨nodup_names_define hs name body, rfl, ?_⟩
  have hpending := countP_pending_define (p := p) hs name body
  have hbody : Function.pending ⟨name, body, false⟩ = [.entered body] ++ Node.historyOf body := rfl
  rw [hbody, List.countP_append] at hpending
  simp only [Trail.silent, Walk.define, exec_modify, State.events, leftover, List.countP_append,
    List.countP_nil]
  omega

/-- A function that is looked up and entered gives what is kept with it. -/
theorem call {next : Option Function → Trail β} (name : String)
    (hnone : Consumes p b (next none) d)
    (hentered : ∀ f : Function, f.entered = true → Consumes p b (next (some f)) d)
    (hpending : ∀ f : Function, f.entered = false →
      ∃ rest, next (some f) = (Trail.silent (enter name) >>= rest) ∧
        Consumes p ([Event.entered f.body].countP p + (Node.historyOf f.body).countP p + b)
          (rest ()) d) :
    Consumes p b (Trail.silent (lookup name) >>= next) d := by
  intro s hs
  have hlookup : (Trail.silent (lookup name) >>= next) s = next (s.functions.get? name) s := rfl
  rw [hlookup]
  cases hf : s.functions.get? name with
  | none => exact hnone s hs
  | some f =>
    cases hflag : f.entered with
    | true => exact hentered f hflag s hs
    | false =>
      obtain ⟨rest, hnext, hrest⟩ := hpending f hflag
      have henter : (Trail.silent (enter name) >>= rest) s =
          rest () { s with functions := s.functions.enter name } := rfl
      have hgiven := countP_pending_enter (p := p) hs hf hflag
      obtain ⟨hnames, hvisits, hevents⟩ :=
        hrest { s with functions := s.functions.enter name } (by
          rw [FunctionTable.names_enter]
          exact hs)
      rw [hnext, henter]
      refine ⟨hnames, hvisits, ?_⟩
      simp only [State.events, List.countP_append] at hevents ⊢
      omega

theorem joinTaint {step : Trail Unit} (h : Consumes p b step c) :
    Consumes p b (.joinTaint step) c := by
  intro s hs
  obtain ⟨hnames, hvisits, hevents⟩ := h s hs
  simp only [Trail.joinTaint, exec_joinTaint, Trail.exec_walk]
  rcases hrun : step s with ⟨⟨fault | _, t⟩, events⟩ <;> rw [hrun] at hnames hvisits hevents
  · exact ⟨hnames, hvisits, hevents⟩
  · exact ⟨hnames, hvisits, hevents⟩

/-! ## Expansions and tests -/

section Visits

variable (function : String)

theorem expansion {n : Node} (hkind : n.kind.isExpansion = true) :
    Consumes p (n.effects.countP p + b) (.silent (expansion { function := function } n)) b := by
  cases htext : n.text with
  | none =>
    have hstops : Walk.expansion { function := function } n = throw .notText := by
      refine Trail.ext_exec fun s => ?_
      simp only [Walk.expansion, text, htext, exec_bind, exec_throw]
    rw [hstops]
    exact (Consumes.kept (.throw _)).adjust (Nat.le_refl _) (by omega)
  | some written =>
    have huse : n.use? = some ⟨written, n.row, n.column⟩ := by simp [Node.use?, hkind, htext]
    have hevents : [Event.used ⟨written, n.row, n.column⟩].countP p ≤ n.effects.countP p := by
      simp only [Node.effects, huse, Option.toList_some, List.map_cons, List.map_nil,
        List.countP_append]
      omega
    have hwritten : Walk.expansion { function := function } n = (do
        when ('[' ∈ written.toList) (subscript { function := function } n)
        Walk.recordUse ⟨written, n.row, n.column⟩) := by
      simp [Walk.expansion, text, htext, Node.lineIn, Node.columnIn]
    rw [hwritten, Trail.silent_bind]
    have subscript : Consumes p (n.effects.countP p + b)
        (.silent (when ('[' ∈ written.toList) (Walk.subscript { function := function } n)))
        (n.effects.countP p + b) :=
      .kept (.when (.subscript (by decide) _ n))
    exact .bind subscript fun _ =>
      (Consumes.recordUse (b := b) ⟨written, n.row, n.column⟩).adjust (by omega) (by omega)

theorem testOwn (opener : String) (armed : Bool) (n : Node) :
    Consumes p (n.effects.countP p + b)
      (.silent (testOwn { function := function } opener armed n)) b := by
  unfold Walk.testOwn
  split
  · exact (Consumes.kept (.injectable (by decide) (by decide) _ _ n)).adjust (Nat.le_refl _)
      (by omega)
  · split
    · exact .expansion function ‹_›
    · exact (Consumes.pure ()).adjust (Nat.le_refl _) (by omega)

theorem testAll {opener : String} {armed : Bool} {ns : List Node}
    (h : ∀ n ∈ ns, ∀ armed,
      Consumes p (n.effects.countP p + (Node.historyOf n.children).countP p)
        (.silent (test { function := function } opener armed n)) 0) :
    Consumes p ((Node.historyOf ns).countP p)
      (.silent (testAll { function := function } opener armed ns)) 0 := by
  induction ns with
  | nil => exact .pure ()
  | cons n ns ih =>
    unfold Walk.testAll
    rw [Trail.silent_bind, Node.historyOf_cons, Node.history_eq]
    simp only [List.countP_append]
    exact .bind ((h n List.mem_cons_self armed).adjust (by omega) (by omega)) fun _ =>
      ih fun m hm => h m (List.mem_cons_of_mem n hm)

theorem test (opener : String) (armed : Bool) (n : Node) :
    Consumes p (n.effects.countP p + (Node.historyOf n.children).countP p)
      (.silent (test { function := function } opener armed n)) 0 := by
  induction n using Node.induction generalizing armed with
  | step n ih =>
    have own := Consumes.testOwn (p := p) (b := (Node.historyOf n.children).countP p) function
      opener armed n
    obtain ⟨kind, written, row, column, endColumn, children⟩ := n
    unfold Walk.test
    simp only [Trail.silent_bind]
    exact .bind own fun _ => .bind (.kept (.armsTest _)) fun _ =>
      .testAll function fun n hn armed => ih n hn armed

/-! ## Visits -/

theorem defineFunction (children : List Node) :
    Consumes p ([Event.entered children].countP p + (Node.historyOf children).countP p + b)
      (.silent (defineFunction children)) b := by
  unfold Walk.defineFunction
  split
  · exact (Consumes.kept (.throw _)).adjust (Nat.le_refl _) (by omega)
  · rename_i word _
    rw [Trail.silent_bind]
    refine .bind (.kept (.text word)) fun name => ?_
    split
    · exact (Consumes.kept (.throw _)).adjust (Nat.le_refl _) (by omega)
    · exact .define name children

section

variable {jump : Jump → Trail Unit}
  (hbody : ∀ body function,
    Consumes p ([Event.entered body].countP p + (Node.historyOf body).countP p)
      (jump (.body body { function := function })) 0)
  (htext : ∀ A script ctx, Keeps A (jump (.script script ctx)).walk)

theorem visitAll_of_visit {parent : Kind} {first : Bool} {ns : List Node}
    (h : ∀ n ∈ ns, ∀ runs,
      Consumes p (n.history.countP p) (Trail.visit jump { function := function } runs n) 0) :
    Consumes p ((Node.historyOf ns).countP p)
      (Trail.visitAll jump { function := function } parent first ns) 0 := by
  induction ns generalizing first with
  | nil => exact .pure ()
  | cons n ns ih =>
    unfold Trail.visitAll
    rw [Node.historyOf_cons, List.countP_append]
    exact .bind ((h n List.mem_cons_self _).adjust (by omega) (by omega)) fun _ =>
      ih fun m hm => h m (List.mem_cons_of_mem n hm)

theorem visitBranches_of_visit {parent : Kind} {first : Bool} {ns : List Node}
    (h : ∀ n ∈ ns, ∀ runs,
      Consumes p (n.history.countP p) (Trail.visit jump { function := function } runs n) 0) :
    Consumes p ((Node.historyOf ns).countP p)
      (Trail.visitBranches jump { function := function } parent first ns) 0 := by
  induction ns generalizing first with
  | nil => exact .pure ()
  | cons n ns ih =>
    unfold Trail.visitBranches
    rw [Node.historyOf_cons, List.countP_append]
    exact .bind (Consumes.joinTaint (h n List.mem_cons_self _) |>.adjust (by omega) (by omega))
      fun _ => ih fun m hm => h m (List.mem_cons_of_mem n hm)

include hbody in
theorem visitCommand_of_visit {first : Bool} {ns : List Node}
    (h : ∀ n ∈ ns, ∀ runs,
      Consumes p (n.history.countP p) (Trail.visit jump { function := function } runs n) 0) :
    Consumes p ((Node.historyOf ns).countP p)
      (Trail.visitCommand jump { function := function } first ns) 0 := by
  induction ns generalizing first with
  | nil => exact .pure ()
  | cons n ns ih =>
    rw [Node.historyOf_cons, List.countP_append]
    have ends (before : Nat) : Consumes p before (Pure.pure () : Trail Unit) 0 :=
      (Consumes.pure ()).adjust (Nat.le_refl _) (by omega)
    have rest : Consumes p ((Node.historyOf ns).countP p)
        (Trail.visitCommand jump { function := function } false ns) 0 :=
      ih fun m hm => h m (List.mem_cons_of_mem n hm)
    have next := Consumes.bind ((h n List.mem_cons_self (Kind.command.runsChild first)).adjust
      (Nat.le_add_right _ ((Node.historyOf ns).countP p)) (by omega)) fun _ => rest
    unfold Trail.visitCommand
    split
    · exact ends _
    · refine .bind (.kept (.callee n)) fun name => ?_
      split
      · exact ends _
      · refine .call name next (fun f hentered => ?_) fun f hentered => ?_
        · simp only [hentered, if_true]
          exact ends _
        -- The body takes what was kept with the function, and the visit of the name is dropped.
        · refine ⟨_, if_neg (by simp [hentered]), ?_⟩
          exact .bind ((hbody f.body name).adjust (by omega) (by omega)) fun _ =>
            rest.adjust (Nat.le_add_left _ (n.history.countP p)) (by omega)
    · exact next

include hbody htext in
theorem visit (runs : Bool) (n : Node) :
    Consumes p (n.history.countP p) (Trail.visit jump { function := function } runs n) 0 := by
  induction n using Node.induction generalizing runs with
  | step n ih =>
    have own := Node.history_eq n
    obtain ⟨kind, written, row, column, endColumn, children⟩ := n
    have all : Consumes p ((Node.historyOf children).countP p)
        (Trail.visitAll jump { function := function } kind true children) 0 :=
      .visitAll_of_visit function fun n hn runs => ih n hn runs
    have branches : Consumes p ((Node.historyOf children).countP p)
        (Trail.visitBranches jump { function := function } kind true children) 0 :=
      .visitBranches_of_visit function fun n hn runs => ih n hn runs
    rw [own]
    simp only [List.countP_append]
    unfold Trail.visit
    refine .visited _ ?_
    have kept {α : Type} {walk : Walk α} (h : Keeps [.used, .functions, .visits] walk)
        (before : Nat) : Consumes p before (.silent walk) 0 :=
      (Consumes.kept h).adjust (Nat.le_refl _) (by omega)
    have drop {trail : Trail Unit} (h : Consumes p ((Node.historyOf children).countP p) trail 0)
        (extra : Nat) : Consumes p (extra + (Node.historyOf children).countP p) trail 0 :=
      h.adjust (Nat.le_add_left _ _) (by omega)
    split
    · have heffects : Node.effects ⟨.functionDefinition, written, row, column, endColumn, children⟩ =
          [.defined ⟨.functionDefinition, written, row, column, endColumn, children⟩] ++
            [.entered children] := rfl
      rw [heffects, List.countP_append]
      exact .bind (c := [Event.defined _].countP p + 0)
        ((defineFunction children).adjust (b := _ + 0) (by omega) (by omega)) fun _ => .tell rfl
    · exact .bind (.kept (.command (by decide) (htext _) _ _)) fun _ =>
        drop (.visitCommand_of_visit function hbody fun n hn runs => ih n hn runs) _
    · exact .bind (.kept (.opener children)) fun _ => .test function _ false _
    · exact .bind (.kept (.opener children)) fun _ =>
        kept (.arithmetic (by decide) (by decide) _ _ false _) _
    · refine .bind (.kept (.declarePairs (by decide) _ children)) fun _ =>
        .bind (.kept (.isLocal children)) fun own => ?_
      split
      · exact kept (.localDeclaration (by decide) (htext _) _ _) _
      · exact drop all _
    · exact kept (.assignment (by decide) (htext _) _ _) _
    · exact kept (.subscript (by decide) _ _) _
    · exact drop branches _
    · exact drop branches _
    · split
      · rename_i hexpansion
        unfold expansionStatement
        rw [Trail.silent_bind]
        exact .bind (.expansion function hexpansion) fun _ =>
          kept (.when (.runExpansion (by decide) _ _)) _
      · exact drop all _

include hbody htext in
theorem visitAll (parent : Kind) (first : Bool) (ns : List Node) :
    Consumes p ((Node.historyOf ns).countP p)
      (Trail.visitAll jump { function := function } parent first ns) 0 :=
  .visitAll_of_visit function fun n _ runs => .visit function hbody htext runs n

end

end Visits

theorem followBodies (budget : Nat) (body : List Node) (function : String) :
    Consumes p ([Event.entered body].countP p + (Node.historyOf body).countP p)
      (Trail.followBodies budget (.body body { function := function })) 0 := by
  induction budget generalizing body function with
  | zero => exact (Consumes.kept (.throw _)).adjust (Nat.le_refl _) (by omega)
  | succ budget ih =>
    unfold Trail.followBodies
    refine .bind (.tell rfl) fun _ => .visitAll function ih (fun A script ctx => ?_) _ _ body
    rw [Trail.walk_followBodies]
    cases budget <;> exact .throw _

end Consumes

/-- What happens in a walk happens no more often than the history of its tree says. -/
theorem subperm_history (budget : Nat) (runs : Bool) (root : Node) :
    let run := Trail.visit (Trail.followBodies budget) {} runs root {}
    (run.2 ++ run.1.2.used.map Event.used).Subperm root.history ∧
      run.1.2.visits = (run.2.filterMap Event.visited?).length := by
  intro run
  have texts (A : List Aspect) (script : String) (ctx : Context) :
      Keeps A (Trail.followBodies budget (.script script ctx)).walk := by
    rw [Trail.walk_followBodies]
    cases budget <;> exact .throw _
  have consumed (p : Event → Bool) : Consumed p (root.history.countP p) 0 {} run :=
    Consumes.visit "" (Consumes.followBodies budget) texts runs root {} List.nodup_nil
  refine ⟨?_, ?_⟩
  · classical
    refine List.subperm_ext_iff.2 fun e _ => ?_
    have := (consumed (· == e)).events
    simp only [State.events, List.countP_append, FunctionTable.pending, List.flatMap_nil,
      List.map_nil, List.countP_nil] at this
    simp only [List.count, List.countP_append]
    omega
  · exact (consumed fun _ => true).visits.trans (Nat.zero_add _)

end Walk

/-! ## Histories of trees -/

namespace Node

/-- The function definitions of a tree. -/
def definitions (n : Node) : List Node := n.all.filter (·.kind = .functionDefinition)

theorem visited_history (n : Node) : n.history.filterMap Walk.Event.visited? = n.all := by
  have own (m : Node) : m.events.filterMap Walk.Event.visited? = [m] := by
    unfold events effects
    split <;> cases m.use? <;> rfl
  simp only [history, List.filterMap_flatMap, own, List.flatMap_singleton']

theorem flatMap_definitions {α : Type} (f : Node → α) (n : Node) :
    (n.all.flatMap fun m => if m.kind = .functionDefinition then [f m] else []) =
      n.definitions.map f := by
  unfold definitions
  induction n.all with
  | nil => rfl
  | cons m ms ih =>
    rw [List.flatMap_cons, ih, List.filter_cons]
    by_cases h : m.kind = .functionDefinition <;> simp [h]

theorem defined_history (n : Node) :
    n.history.filterMap Walk.Event.defined? = n.definitions := by
  have own (m : Node) : m.events.filterMap Walk.Event.defined? =
      if m.kind = .functionDefinition then [m] else [] := by
    unfold events effects
    split <;> cases m.use? <;> rfl
  simp only [history, List.filterMap_flatMap, own, flatMap_definitions (fun m => m), List.map_id']

theorem entered_history (n : Node) :
    n.history.filterMap Walk.Event.entered? = n.definitions.map (·.children) := by
  have own (m : Node) : m.events.filterMap Walk.Event.entered? =
      if m.kind = .functionDefinition then [m.children] else [] := by
    unfold events effects
    split <;> cases m.use? <;> rfl
  simp only [history, List.filterMap_flatMap, own, flatMap_definitions (·.children)]

theorem used_history (n : Node) :
    n.history.filterMap Walk.Event.used? = n.all.filterMap use? := by
  have own (m : Node) : m.events.filterMap Walk.Event.used? = m.use?.toList := by
    unfold events effects
    split <;> cases m.use? <;> rfl
  rw [history, List.filterMap_flatMap, List.filterMap_eq_flatMap_toList]
  simp only [own]

end Node

namespace Tree

mutual

/-- The tree and all trees below it, in the order of the text. -/
def all : Tree → List Tree
  | tree@⟨_, _, _, children⟩ => tree :: allOf children

def allOf : List Tree → List Tree
  | [] => []
  | t :: ts => all t ++ allOf ts

end

/-- The bytes of a text of the given size that a node covers: where they start, and how
many they are. -/
def extent (size : Nat) (t : Tree) : Nat × Nat := (t.start, min t.stop size - t.start)

/-- The nodes of a tree that are expansions. -/
def expansions (t : Tree) : List Tree := t.all.filter (·.kind.isExpansion)

mutual

theorem all_resolve (source : List UInt8) (t : Tree) :
    (t.resolve source).all = t.all.map (resolve source) := by
  obtain ⟨kind, start, stop, children⟩ := t
  rw [Node.all_eq, all, List.map_cons]
  congr 1
  rw [resolve]
  exact allOf_resolve source children

theorem allOf_resolve (source : List UInt8) (ts : List Tree) :
    Node.allOf (resolveAll source ts) = (allOf ts).map (resolve source) := by
  cases ts with
  | nil => rfl
  | cons t ts =>
    rw [resolveAll, Node.allOf, allOf, List.map_append, all_resolve source t,
      allOf_resolve source ts]

end

/-- Behind an offset the columns go up, until a line feed makes the row go up. -/
theorem columnAt_of_rowAt {source : List UInt8} {a b : Nat} (hab : a ≤ b)
    (hrow : rowAt source a = rowAt source b) :
    columnAt source b + a = columnAt source a + b := by
  have hsplit : source.take b = source.take a ++ (source.drop a).take (b - a) := by
    rw [← List.take_add, Nat.add_sub_cancel' hab]
  have hfeed : ∀ x ∈ ((source.drop a).take (b - a)).reverse, decide (x ≠ 10) = true := by
    unfold rowAt at hrow
    rw [hsplit, List.count_append] at hrow
    have hnone : 10 ∉ (source.drop a).take (b - a) := List.count_eq_zero.1 (by omega)
    intro x hx
    exact decide_eq_true fun h => hnone (h ▸ List.mem_reverse.1 hx)
  unfold columnAt
  rw [hsplit, List.reverse_append, List.takeWhile_append_of_pos hfeed, List.length_append,
    List.length_reverse, List.length_take, List.length_drop]
  omega

/-- A row and a column belong to one offset. -/
theorem offset_of_position {source : List UInt8} {a b : Nat}
    (hrow : rowAt source a = rowAt source b) (hcolumn : columnAt source a = columnAt source b) :
    a = b := by
  rcases Nat.le_total a b with hab | hab
  · have := columnAt_of_rowAt hab hrow
    omega
  · have := columnAt_of_rowAt hab hrow.symm
    omega

theorem utf8ByteSize_of_textAt {source : List UInt8} {start stop : Nat} {text : String}
    (h : textAt source start stop = some text) :
    text.utf8ByteSize = min stop source.length - start := by
  unfold textAt String.fromUTF8? at h
  split at h
  · cases h
    have : ((source.take stop).drop start).length = min stop source.length - start := by
      rw [List.length_drop, List.length_take]
    exact this
  · cases h

/-- Expansions that are recorded alike cover the same bytes. -/
theorem extent_of_use {source : List UInt8} {t t' : Tree} {u : Use}
    (h : (t.resolve source).use? = some u) (h' : (t'.resolve source).use? = some u) :
    t.extent source.length = t'.extent source.length := by
  obtain ⟨kind, start, stop, children⟩ := t
  obtain ⟨kind', start', stop', children'⟩ := t'
  obtain ⟨-, written, htext, rfl⟩ := Node.use?_eq_some.1 h
  obtain ⟨-, written', htext', heq⟩ := Node.use?_eq_some.1 h'
  simp only [resolve] at htext htext' heq
  simp only [Use.mk.injEq] at heq
  obtain ⟨rfl, hrow, hcolumn⟩ := heq
  obtain rfl := offset_of_position (Int.ofNat.inj hrow) (Int.ofNat.inj hcolumn)
  simp only [extent, ← utf8ByteSize_of_textAt htext, ← utf8ByteSize_of_textAt htext']

/-- If no two expansions cover the same bytes, no two are recorded alike. -/
theorem nodup_uses {source : List UInt8} {t : Tree}
    (h : (t.expansions.map (extent source.length)).Nodup) :
    ((t.resolve source).all.filterMap Node.use?).Nodup := by
  rw [all_resolve, List.filterMap_map]
  rw [List.Nodup, List.pairwise_map, expansions, List.pairwise_filter] at h
  rw [List.Nodup, List.pairwise_filterMap]
  refine h.imp fun {a b} hne u hu u' hu' heq => ?_
  subst heq
  have isExpansion {t : Tree} (ht : (t.resolve source).use? = some u) :
      t.kind.isExpansion = true := by
    obtain ⟨kind, start, stop, children⟩ := t
    exact (Node.use?_eq_some.1 ht).1
  exact hne (isExpansion hu) (isExpansion hu') (extent_of_use hu hu')

end Tree

namespace Walk

/-- Where the text is not moved, both walks find the same. -/
theorem Shifted.toSurvey_eq {start s t : State} (h : Shifted start ⟨0, 0⟩ s t) :
    t.toSurvey = s.toSurvey := by
  obtain ⟨htainted, -, hfunctions, found, hs, ht⟩ := h
  rw [Survey.shift_zero] at ht
  calc t.toSurvey
      = ⟨t.assigned, t.used, t.commands, t.subscripts, t.injectable, t.pairs, t.functions,
          t.tainted⟩ := rfl
    _ = ⟨s.assigned, s.used, s.commands, s.subscripts, s.injectable, s.pairs, s.functions,
          s.tainted⟩ := by
      rw [ht.assigned, ht.used, ht.commands, ht.subscripts, ht.injectable, ht.pairs, hfunctions,
        htainted, hs.assigned, hs.used, hs.commands, hs.subscripts, hs.injectable, hs.pairs]
    _ = s.toSurvey := rfl

theorem subperm_filterMap {α β : Type} (f : α → Option β) {l l' : List α} (h : l.Subperm l') :
    (l.filterMap f).Subperm (l'.filterMap f) := by
  obtain ⟨l'', hperm, hsub⟩ := h
  exact ⟨l''.filterMap f, hperm.filterMap f, hsub.filterMap f⟩

/-- Let a script run no text in a shell, and let no two expansions in its tree cover the same
bytes. Whatever functions there are and wherever they are called, no node is visited more
often than it stands in the tree, no definition is put into the table more often and no body
is walked more often; so no two expansions are recorded alike. The trail that tells this is
the walk of the script. -/
theorem script_walks_nodes_once (g : Grammar) (text : String) (tree : Tree)
    (htree : g.tree? text = some tree)
    (htexts : ReachesNoText (g.budget (tree.resolve (Tree.bytes text)).load) {} false
      (tree.resolve (Tree.bytes text)) {})
    (hextents : (tree.expansions.map (Tree.extent (Tree.bytes text).length)).Nodup) :
    let root := tree.resolve (Tree.bytes text)
    let run := Trail.visit (Trail.followBodies (g.budget root.load)) {} false root {}
    let outcome := (script g text).exec {}
    (outcome.1 = run.1.1 ∧ outcome.2.toSurvey = run.1.2.toSurvey ∧
        run.1.2.visits = (run.2.filterMap Event.visited?).length) ∧
      (run.2.filterMap Event.visited?).Subperm root.all ∧
      (run.2.filterMap Event.defined?).Subperm root.definitions ∧
      (run.2.filterMap Event.entered?).Subperm (root.definitions.map (·.children)) ∧
      outcome.2.used.Nodup := by
  intro root run outcome
  -- The trail is the walk that stops at texts, and the script comes to none.
  have hrun : run.1 = (visit (followBodies (g.budget root.load)) {} false root).exec {} := by
    rw [← funext (Trail.walk_followBodies (g.budget root.load)), ← Trail.walk_visit]
    rfl
  have houtcome :
      outcome = (visit (follow g.parse? (g.budget root.load)) {} false root).exec {} := by
    have hroot : g.parse? text = some root := by rw [Grammar.parse?, htree, Option.map_some]
    simp only [outcome, exec_script, hroot, scriptWithin, Option.elim]
  obtain ⟨hresult, hshifted⟩ :=
    visit_followBodies g.parse? (g.budget root.load) {} false root {} ⟨0, 0⟩ htexts
  rw [Context.shift_zero, ← hrun, ← houtcome] at hresult hshifted
  have hsurvey := hshifted.toSurvey_eq
  obtain ⟨hsubperm, hvisits⟩ := subperm_history (g.budget root.load) false root
  have told : run.2.Subperm root.history := (List.sublist_append_left _ _).subperm.trans hsubperm
  have recorded : (outcome.2.used.map Event.used).Subperm root.history := by
    rw [show outcome.2.used = run.1.2.used from congrArg Survey.used hsurvey]
    exact (List.sublist_append_right _ _).subperm.trans hsubperm
  refine ⟨⟨hresult, hsurvey, hvisits⟩, ?_, ?_, ?_, ?_⟩
  · exact root.visited_history ▸ subperm_filterMap Event.visited? told
  · exact root.defined_history ▸ subperm_filterMap Event.defined? told
  · exact root.entered_history ▸ subperm_filterMap Event.entered? told
  · have huses := subperm_filterMap Event.used? recorded
    have hall : (outcome.2.used.map Event.used).filterMap Event.used? = outcome.2.used := by
      rw [List.filterMap_map]
      exact List.filterMap_some
    rw [hall, root.used_history] at huses
    obtain ⟨uses, hperm, hsub⟩ := huses
    exact hperm.nodup_iff.1 ((Tree.nodup_uses hextents).sublist hsub)

/-- The script `f(){ echo $x;f;};f;f`, a function that calls itself and is called twice. -/
def selfCalling : String := "f()\x7b echo $x;f;\x7d;f;f"

def selfCallingTree : Tree :=
  ⟨.program, 0, 20,
    [⟨.functionDefinition, 0, 16,
        [⟨.word, 0, 1, []⟩,
          ⟨.compoundStatement, 3, 16,
            [⟨.command, 5, 12,
                [⟨.commandName, 5, 9, [⟨.word, 5, 9, []⟩]⟩,
                  ⟨.simpleExpansion, 10, 12, [⟨.variableName, 11, 12, []⟩]⟩]⟩,
              ⟨.command, 13, 14, [⟨.commandName, 13, 14, [⟨.word, 13, 14, []⟩]⟩]⟩]⟩]⟩,
      ⟨.command, 17, 18, [⟨.commandName, 17, 18, [⟨.word, 17, 18, []⟩]⟩]⟩,
      ⟨.command, 19, 20, [⟨.commandName, 19, 20, [⟨.word, 19, 20, []⟩]⟩]⟩]⟩

def selfCallingTable : Grammar := ⟨[(selfCalling, some selfCallingTree)]⟩

def selfCallingRoot : Node := selfCallingTree.resolve (Tree.bytes selfCalling)

/-- What happens in the walk of the script. -/
def selfCallingEvents : List Event :=
  (Trail.visit (Trail.followBodies (selfCallingTable.budget selfCallingRoot.load)) {} false
    selfCallingRoot {}).2

/-- The body of the function is walked once, and `$x` is recorded once. -/
theorem script_walks_nodes_once_selfCalling :
    ReachesNoText (selfCallingTable.budget selfCallingRoot.load) {} false selfCallingRoot {} ∧
      (selfCallingTree.expansions.map (Tree.extent (Tree.bytes selfCalling).length)).Nodup ∧
      (selfCallingEvents.filterMap Event.visited?).Subperm selfCallingRoot.all ∧
      (selfCallingEvents.filterMap Event.entered?).length = 1 ∧
      ((script selfCallingTable selfCalling).exec {}).2.used.Nodup ∧
      ((script selfCallingTable selfCalling).exec {}).2.used = [⟨"$x", 0, 10⟩] := by
  have texts : ReachesNoText (selfCallingTable.budget selfCallingRoot.load) {} false
      selfCallingRoot {} := by decide +kernel
  have extents :
      (selfCallingTree.expansions.map (Tree.extent (Tree.bytes selfCalling).length)).Nodup := by
    decide +kernel
  obtain ⟨-, visited, -, -, nodup⟩ := script_walks_nodes_once selfCallingTable selfCalling
    selfCallingTree (by simp [selfCallingTable, Grammar.tree?]) texts extents
  exact ⟨texts, extents, visited, by decide +kernel, nodup, by decide +kernel⟩

end Walk

end ShellAudit
