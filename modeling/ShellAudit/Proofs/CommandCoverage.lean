-- SUMMARY: Which commands of a tree are recorded, and which ones the walk passes over.
import ShellAudit.Proofs.Callees
import ShellAudit.Proofs.Parallel

/-!
# Commands that are seen

A visit goes on to some children of a node and leaves others out. It does not go into
function definitions, tests, arithmetic, expansions and subscripts; of a command it leaves
out what follows an assignment, the name of a shell or the name of a function that has been
entered before. Of assignments it reads the value, and in a value it leaves nothing out.

`Sees` says this of the tree alone. The walk of a node records all commands that the node
sees, and no others as long as it does not leave the tree.
-/

namespace ShellAudit

namespace Node

/-- A command with a name. -/
def IsNamedCommand (n : Node) : Prop := n.kind = .command ∧ n.draft.name ≠ ""

instance : DecidablePred IsNamedCommand := fun _ => inferInstanceAs (Decidable (_ ∧ _))

/-- The second node is a command with a name, and it is the first node or stands below it. -/
def Contains (n m : Node) : Prop := n.Below m ∧ m.IsNamedCommand

/-- One of the nodes contains the command. -/
def AnyContains (ns : List Node) (m : Node) : Prop := ∃ n ∈ ns, n.Contains m

/-- The values of the assignments among some nodes. -/
def assignedValues (ns : List Node) : List Node :=
  (ns.filter (·.kind = .variableAssignment)).flatMap (·.children.getLast?.toList)

/-- The nodes that a visit of the node reads as values. -/
def readValues (n : Node) : List Node :=
  match n.kind with
  | .variableAssignment => n.children.getLast?.toList
  | .command => assignedValues n.children
  | .declarationCommand => if n.IsLocal then assignedValues n.children else []
  | _ => []

/-- The line and the column that the node is recorded at as a command. -/
def site (ctx : Walk.Context) (n : Node) : Int × Int :=
  (n.lineIn ctx, if n.kind = .command then ctx.column + n.draft.column else n.columnIn ctx)

@[simp] theorem not_anyContains_nil (m : Node) : ¬AnyContains [] m := by
  simp [AnyContains]

@[simp] theorem anyContains_cons {n m : Node} {ns : List Node} :
    AnyContains (n :: ns) m ↔ n.Contains m ∨ AnyContains ns m := by
  simp [AnyContains]

@[simp] theorem anyContains_append {m : Node} {ns ks : List Node} :
    AnyContains (ns ++ ks) m ↔ AnyContains ns m ∨ AnyContains ks m := by
  simp only [AnyContains, List.mem_append, or_and_right, exists_or]

theorem contains_iff {n m : Node} :
    n.Contains m ↔ (m = n ∧ n.IsNamedCommand) ∨ AnyContains n.children m := by
  constructor
  · rintro ⟨hbelow, hm⟩
    cases hbelow with
    | self => exact .inl ⟨rfl, hm⟩
    | child hc hbelow => exact .inr ⟨_, hc, hbelow, hm⟩
  · rintro (⟨rfl, hm⟩ | ⟨c, hc, hbelow, hm⟩)
    · exact ⟨.self m, hm⟩
    · exact ⟨.child hc hbelow, hm⟩

theorem assignedValues_cons_assignment {n : Node} (h : n.kind = .variableAssignment)
    (ns : List Node) :
    assignedValues (n :: ns) = n.children.getLast?.toList ++ assignedValues ns := by
  simp [assignedValues, h]

theorem assignedValues_cons_other {n : Node} (h : n.kind ≠ .variableAssignment) (ns : List Node) :
    assignedValues (n :: ns) = assignedValues ns := by
  simp [assignedValues, h]

/-- What an assigned value contains, the node of the assignment contains. -/
theorem contains_of_assignedValues {ns : List Node} {v m : Node} (hv : v ∈ assignedValues ns)
    (hm : v.Contains m) : AnyContains ns m := by
  obtain ⟨c, hc, hlast⟩ := List.mem_flatMap.1 hv
  have hchild : v ∈ c.children := List.mem_of_getLast? (by simpa using hlast)
  exact ⟨c, (List.mem_filter.1 hc).1, contains_iff.2 (.inr ⟨v, hchild, hm⟩)⟩

end Node

/-- A node with what a visit that comes to it knows: the names that may have been called
before, and whether an expansion here stands where a command stands. -/
structure Place where
  called : List String
  runs : Bool
  node : Node

namespace Place

/-- The places of children, one after the other. -/
def ofChildren (known : List String) (parent : Kind) (called : List String) (first : Bool) :
    List Node → List Place
  | [] => []
  | n :: ns =>
    ⟨called, parent.runsChild first, n⟩ ::
      ofChildren known parent (called ++ n.callees known) false ns

/-- The child of a command is the name of a known function. -/
def isCall (known : List String) (p : Place) : Bool := p.node.calls?.any known.contains

/-- The child of a command at which the visit of its children ends. -/
def isLast (known : List String) (p : Place) : Bool :=
  p.node.kind = .variableAssignment ∨ p.node.calls?.any Walk.shells.contains ∨
    p.isCall known ∧ p.node.calls?.any p.called.contains

/-- What is left of the children of a command: a visit ends at the last of them, and it goes
to the body of a function instead of its name. -/
def visited (known : List String) (ps : List Place) : List Place :=
  (ps.takeWhile fun p => !p.isLast known).filter fun p => !p.isCall known

/-- The children that a visit of the node goes on to. -/
def opens (known : List String) (p : Place) : List Place :=
  let children := ofChildren known p.node.kind p.called true p.node.children
  match p.node.kind with
  | .command =>
    visited known
      (ofChildren known .command (p.called ++ p.node.textCallees known) true p.node.children)
  | .declarationCommand => if p.node.IsLocal then [] else children
  | .functionDefinition | .testCommand | .arithmeticExpansion | .variableAssignment
  | .subscript => []
  | kind => if kind.isExpansion then [] else children

/-- A visit of the place comes to the node and records it as a command. -/
inductive Sees (known : List String) : Place → Node → Prop
  | command {p : Place} : p.node.IsNamedCommand → Sees known p p.node
  | expansion {p : Place} : p.runs = true → p.node.kind.isExpansion = true →
      p.node.kind ≠ .arithmeticExpansion → Sees known p p.node
  | value {p : Place} {m : Node} : Node.AnyContains p.node.readValues m → Sees known p m
  | child {p c : Place} {m : Node} : c ∈ p.opens known → Sees known c m → Sees known p m

/-- A visit of one of the places comes to the node. -/
def AnySees (known : List String) (ps : List Place) (m : Node) : Prop := ∃ p ∈ ps, p.Sees known m

@[simp] theorem not_anySees_nil (known : List String) (m : Node) : ¬AnySees known [] m := by
  simp [AnySees]

@[simp] theorem anySees_cons {known : List String} {p : Place} {m : Node} {ps : List Place} :
    AnySees known (p :: ps) m ↔ p.Sees known m ∨ AnySees known ps m := by
  simp [AnySees]

theorem sees_iff {known : List String} {p : Place} {m : Node} :
    p.Sees known m ↔
      (m = p.node ∧ p.node.IsNamedCommand) ∨
      (m = p.node ∧ p.runs = true ∧ p.node.kind.isExpansion = true ∧
        p.node.kind ≠ .arithmeticExpansion) ∨
      Node.AnyContains p.node.readValues m ∨ AnySees known (p.opens known) m := by
  constructor
  · intro h
    cases h with
    | command h => exact .inl ⟨rfl, h⟩
    | expansion hruns hkind hne => exact .inr (.inl ⟨rfl, hruns, hkind, hne⟩)
    | value h => exact .inr (.inr (.inl h))
    | child hc h => exact .inr (.inr (.inr ⟨_, hc, h⟩))
  · rintro (⟨rfl, h⟩ | ⟨rfl, hruns, hkind, hne⟩ | h | ⟨c, hc, h⟩)
    · exact .command h
    · exact .expansion hruns hkind hne
    · exact .value h
    · exact .child hc h

/-- There is nothing to see in definitions, tests, arithmetic and subscripts. -/
theorem not_sees_of_closed {known : List String} {p : Place} {m : Node}
    (h : p.node.kind ∈ [.functionDefinition, .testCommand, .arithmeticExpansion, .subscript]) :
    ¬p.Sees known m := by
  rw [sees_iff]
  simp only [List.mem_cons, List.not_mem_nil, or_false] at h
  rcases h with h | h | h | h <;>
    simp [h, Node.IsNamedCommand, Node.readValues, opens, Kind.isExpansion]

theorem isCall_iff {known : List String} {p : Place} {name : String}
    (h : p.node.calls? = some name) : p.isCall known = true ↔ name ∈ known := by
  simp [isCall, h]

theorem isLast_iff {known : List String} {p : Place} {name : String}
    (h : p.node.calls? = some name) :
    p.isLast known = true ↔ name ∈ Walk.shells ∨ name ∈ known ∧ name ∈ p.called := by
  have hkind : p.node.kind ≠ .variableAssignment := fun hkind => by simp [Node.calls?, hkind] at h
  simp [isLast, isCall_iff h, hkind, h]

theorem visited_cons_of_isLast {known : List String} {p : Place} (h : p.isLast known = true)
    (ps : List Place) : visited known (p :: ps) = [] := by
  simp [visited, h]

theorem visited_cons {known : List String} {p : Place} (h : p.isLast known = false)
    (ps : List Place) :
    visited known (p :: ps) =
      if p.isCall known then visited known ps else p :: visited known ps := by
  cases hcall : p.isCall known <;> simp [visited, h, hcall]

end Place

theorem FunctionTable.mem_names_of_get? {table : FunctionTable} {name : String} {f : Function}
    (h : table.get? name = some f) : name ∈ table.names := by
  have hname : f.name = name := by simpa using List.find?_some h
  exact hname ▸ List.mem_map_of_mem (List.mem_of_find?_eq_some h)

/-- The line and the column of a command. -/
def Command.site (c : Command) : Int × Int := (c.line, c.column)

namespace Walk

theorem Returns.resolve (name : String) : Returns (resolve name) (Scope.Means name) := by
  intro s resolved t h
  unfold Walk.resolve at h
  simp only [exec_bind, exec_get] at h
  split at h
  · rename_i qualified hqualified
    cases h
    exact Scope.means_of_qualified? hqualified
  · cases h
    exact .inl rfl

theorem isLocal_returns (ns : List Node) :
    Returns (isLocal ns) (· = ns.head?.any (·.kind = .localKeyword)) := by
  cases ns with
  | nil => exact fun _ _ _ h => by cases h
  | cons n ns => exact .pure (by simp)

theorem Asks.same {α : Type} {walk : Walk α} {s t : State} {result : Except Fault α}
    (h : Asks walk) (hexec : walk.exec s = (result, t)) : t = s := by
  obtain ⟨_, hasks⟩ := h
  rw [hasks s] at hexec
  exact (Prod.mk.inj hexec).2.symm

theorem exec_joinTaint_ok {step : Walk Unit} {s t : State} {a : Unit}
    (h : (joinTaint step).exec s = (.ok a, t)) :
    ∃ u, step.exec s = (.ok (), u) ∧ t = { u with tainted := s.tainted.union u.tainted } := by
  rw [exec_joinTaint] at h
  rcases hstep : step.exec s with ⟨fault | _, u⟩ <;> rw [hstep] at h <;> cases h
  exact ⟨u, rfl, rfl⟩

/-! ## What is logged -/

/-- The commands that are behind those of the first state in the second one are at the
sites of nodes with `S`: all of these nodes are there, and no others if `stays` holds. -/
def Logged (ctx : Context) (stays : Prop) (S : Node → Prop) (s t : State) : Prop :=
  ∃ added, t.commands = s.commands ++ added ∧
    (∀ m, S m → ∃ c ∈ added, c.site = m.site ctx) ∧
    (stays → ∀ c ∈ added, ∃ m, S m ∧ c.site = m.site ctx)

/-- A walk that returns has only added to the records. If all functions that it has seen are
known, it has logged the nodes with `S`. -/
def LogsFrom (ctx : Context) (known : List String) (stays : Prop) (s : State) (S : Node → Prop)
    {α : Type} (walk : Walk α) : Prop :=
  ∀ a t, walk.exec s = (.ok a, t) →
    Extends s t ∧ (t.functions.names ⊆ known → Logged ctx stays S s t)

/-- The walk logs the nodes with `S` wherever it starts from. -/
def Logs (ctx : Context) (known : List String) (stays : Prop) (S : Node → Prop) {α : Type}
    (walk : Walk α) : Prop :=
  ∀ s, LogsFrom ctx known stays s S walk

section

variable {ctx : Context} {known : List String} {stays : Prop} {S S' : Node → Prop} {α β : Type}
  {walk : Walk α} {s : State}

namespace LogsFrom

theorem congr (h : LogsFrom ctx known stays s S walk) (hS : ∀ m, S m ↔ S' m) :
    LogsFrom ctx known stays s S' walk := by
  have heq : S = S' := funext fun m => propext (hS m)
  exact heq ▸ h

/-- A walk that leaves the tree logs no less for that. -/
theorem weaken (h : LogsFrom ctx known stays s S walk) (hstays : ¬stays) (hS : ∀ m, S' m → S m) :
    LogsFrom ctx known stays s S' walk := by
  intro a t hexec
  obtain ⟨hextends, hlogged⟩ := h a t hexec
  refine ⟨hextends, fun hknown => ?_⟩
  obtain ⟨added, hadded, hcovers, -⟩ := hlogged hknown
  exact ⟨added, hadded, fun m hm => hcovers m (hS m hm), fun h => absurd h hstays⟩

/-- What two walks log one after the other. -/
theorem bind {next : α → Walk β} (h : LogsFrom ctx known stays s S walk)
    (hnext : ∀ a t, walk.exec s = (.ok a, t) → LogsFrom ctx known stays t S' (next a)) :
    LogsFrom ctx known stays s (fun m => S m ∨ S' m) (walk >>= next) := by
  intro b t hexec
  obtain ⟨a, u, hfirst, hsecond⟩ := exec_bind_ok hexec
  obtain ⟨hsu, hlogged⟩ := h a u hfirst
  obtain ⟨hut, hlogged'⟩ := hnext a u hfirst b t hsecond
  refine ⟨hsu.trans hut, fun hknown => ?_⟩
  obtain ⟨added, hadded, hcovers, honly⟩ := hlogged fun name hname =>
    hknown (hut.functions.subset hname)
  obtain ⟨added', hadded', hcovers', honly'⟩ := hlogged' hknown
  refine ⟨added ++ added', by rw [hadded', hadded, List.append_assoc], fun m hm => ?_,
    fun hstays c hc => ?_⟩
  · rcases hm with hm | hm
    · obtain ⟨c, hc, hsite⟩ := hcovers m hm
      exact ⟨c, List.mem_append_left _ hc, hsite⟩
    · obtain ⟨c, hc, hsite⟩ := hcovers' m hm
      exact ⟨c, List.mem_append_right _ hc, hsite⟩
  · rcases List.mem_append.1 hc with hc | hc
    · obtain ⟨m, hm, hsite⟩ := honly hstays c hc
      exact ⟨m, .inl hm, hsite⟩
    · obtain ⟨m, hm, hsite⟩ := honly' hstays c hc
      exact ⟨m, .inr hm, hsite⟩

theorem joinTaint {step : Walk Unit} (h : LogsFrom ctx known stays s S step) :
    LogsFrom ctx known stays s S (joinTaint step) := by
  intro a t hexec
  obtain ⟨u, hstep, rfl⟩ := exec_joinTaint_ok hexec
  obtain ⟨hextends, hlogged⟩ := h () u hstep
  exact ⟨hextends.of_records rfl, hlogged⟩

/-- A function that is found is known in the end. -/
theorem lookup {name : String} {next : Option Function → Walk α}
    (hnone : LogsFrom ctx known stays s S (next none))
    (hextending : ∀ f, Extending (next (some f)))
    (hsome : name ∈ known → ∀ f, s.functions.get? name = some f →
      LogsFrom ctx known stays s S (next (some f))) :
    LogsFrom ctx known stays s S (lookup name >>= next) := by
  intro a t hexec
  change (next (s.functions.get? name)).exec s = (.ok a, t) at hexec
  cases hfunction : s.functions.get? name with
  | none =>
    rw [hfunction] at hexec
    exact hnone a t hexec
  | some f =>
    rw [hfunction] at hexec
    have hextends := hextending f s
    rw [hexec] at hextends
    refine ⟨hextends, fun hknown => ?_⟩
    have hname : name ∈ known :=
      hknown (hextends.functions.subset (FunctionTable.mem_names_of_get? hfunction))
    exact (hsome hname f hfunction a t hexec).2 hknown

end LogsFrom

namespace Logs

theorem congr (h : Logs ctx known stays S walk) (hS : ∀ m, S m ↔ S' m) :
    Logs ctx known stays S' walk :=
  fun s => (h s).congr hS

/-- Nothing is logged where no command is recorded. -/
theorem nothing (hextending : Extending walk) (hkeeps : Keeps [.commands] walk) :
    Logs ctx known stays (fun _ => False) walk := by
  intro s a t hexec
  have hextends := hextending s
  have hcommands := hkeeps s .commands (by simp)
  rw [hexec] at hextends hcommands
  refine ⟨hextends, fun _ => ⟨[], ?_, fun m hm => hm.elim, fun _ c hc => ?_⟩⟩
  · rw [List.append_nil]
    exact hcommands
  · exact absurd hc List.not_mem_nil

/-- Nothing is said about what a walk logs elsewhere. -/
theorem leaves (hextending : Extending walk) (hstays : ¬stays) :
    Logs ctx known stays (fun _ => False) walk := by
  intro s a t hexec
  have hextends := hextending s
  rw [hexec] at hextends
  obtain ⟨added, hadded⟩ := hextends.commands
  exact ⟨hextends, fun _ =>
    ⟨added, hadded.symm, fun m hm => hm.elim, fun h => absurd h hstays⟩⟩

theorem bind {next : α → Walk β} {p : α → Prop} (h : Logs ctx known stays S walk)
    (hreturns : Returns walk p) (hnext : ∀ a, p a → Logs ctx known stays S' (next a)) :
    Logs ctx known stays (fun m => S m ∨ S' m) (walk >>= next) :=
  fun s => (h s).bind fun a t hexec => hnext a (hreturns s a t hexec) t

theorem seq {next : α → Walk β} (h : Logs ctx known stays S walk)
    (hnext : ∀ a, Logs ctx known stays S' (next a)) :
    Logs ctx known stays (fun m => S m ∨ S' m) (walk >>= next) :=
  h.bind (.any walk) fun a _ => hnext a

/-- A first walk that records no command. -/
theorem after {next : α → Walk β} {p : α → Prop} (hextending : Extending walk)
    (hkeeps : Keeps [.commands] walk) (hreturns : Returns walk p)
    (hnext : ∀ a, p a → Logs ctx known stays S (next a)) :
    Logs ctx known stays S (walk >>= next) :=
  ((Logs.nothing hextending hkeeps).bind hreturns hnext).congr fun _ => by simp

/-- A last walk that records no command. -/
theorem before {next : α → Walk β} (h : Logs ctx known stays S walk)
    (hextending : ∀ a, Extending (next a)) (hkeeps : ∀ a, Keeps [.commands] (next a)) :
    Logs ctx known stays S (walk >>= next) :=
  (h.seq fun a => .nothing (hextending a) (hkeeps a)).congr fun _ => by simp

theorem pure (a : α) : Logs ctx known stays (fun _ => False) (pure a) :=
  .nothing (.pure a) (.pure a)

theorem throw (fault : Fault) : Logs ctx known stays S (throw fault : Walk α) :=
  fun _ _ _ hexec => by cases hexec

theorem recordCommand (n : Node) {c : Command} (hsite : c.site = n.site ctx) :
    Logs ctx known stays (· = n) (recordCommand c) := by
  intro s a t hexec
  cases hexec
  refine ⟨(Plain.recordCommand c).extending s, fun _ =>
    ⟨[c], rfl, fun m hm => ?_, fun _ d hd => ?_⟩⟩
  · exact ⟨c, List.mem_singleton_self c, hm ▸ hsite⟩
  · exact ⟨n, rfl, List.mem_singleton.1 hd ▸ hsite⟩

/-! ## Values and commands -/

section Values

variable {jump : Jump → Walk Unit}
  (hjump : ∀ j, Composed (fun step _ => Extending step) (jump j) (jump j))

section

include hjump

theorem finish {n : Node} (hkind : n.kind = .command) (hstays : stays → n.RunsNoText) :
    Logs ctx known stays (fun m => m = n ∧ n.IsNamedCommand) (finish jump ctx n n.draft) := by
  have runNested (c : Command) (hmeans : Scope.Means n.draft.name c.name)
      (harguments : c.arguments = n.draft.arguments) :
      Logs ctx known stays (fun _ => False) (runNested jump ctx c) := by
    by_cases h : stays
    · unfold Walk.runNested
      split
      · rename_i script hscript
        split
        · rename_i hshell
          have hshell : c.name ∈ shells := List.contains_iff_mem.1 hshell
          have hwritten : n.draft.name = c.name :=
            hmeans.eq_of_undotted ((by decide : ∀ shell ∈ shells, Scope.depth shell = 0) _ hshell)
          have hrun := hstays h hkind (hwritten ▸ hshell)
          rw [← harguments, hscript] at hrun
          cases hrun
        · exact .pure ()
      · exact .pure ()
    · exact .leaves (Composed.runNested hjump ctx c).extending h
  have record : Logs ctx known stays (· = n) (record jump ctx n n.draft) := by
    refine .after (.resolve _) (.resolve (by decide) _) (.resolve _) fun name hname => ?_
    have hsite : Command.site
        ⟨name, n.draft.arguments, n.lineIn ctx, ctx.column + n.draft.column⟩ = n.site ctx := by
      simp [Command.site, Node.site, hkind]
    refine ((Logs.recordCommand n hsite).seq fun _ => ?_).congr fun _ => by rw [or_false]
    refine .after (Plain.when (.readInto ctx n _)).extending
      (.when (.readInto (by decide) (by decide) (by decide) ctx n _)) (.any _) fun _ _ => ?_
    exact .before (runNested _ hname rfl) (fun _ => .pure _) fun _ => .pure _
  unfold Walk.finish
  split
  · rename_i hempty
    exact (Logs.pure none).congr fun m => by simp [Node.IsNamedCommand, hempty]
  · rename_i hnamed
    refine (before record (fun _ => .pure _) fun _ => .pure _).congr fun m => ?_
    simp [Node.IsNamedCommand, hkind, hnamed]

end

/-- Of the nodes of a value, only commands are recorded as commands. -/
theorem ownPart {n : Node} {recorded : Walk (Option Command)}
    (h : n.kind = .command → Logs ctx known stays S recorded) :
    Logs ctx known stays (fun m => n.kind = .command ∧ S m) (ownPart ctx recorded n) := by
  by_cases hkind : n.kind = .command
  · have hown : Walk.ownPart ctx recorded n =
        recorded >>= fun c => Pure.pure (c.toList.map .output) := by
      rw [Walk.ownPart, hkind]
    rw [hown]
    exact ((h hkind).before (fun _ => .pure _) fun _ => .pure _).congr fun m => by simp [hkind]
  · have quiet : Logs ctx known stays (fun _ => False) (Walk.ownPart ctx recorded n) := by
      unfold Walk.ownPart
      split
      · exact .nothing (.bind (Plain.braced n _).extending fun _ => .pure _)
          (.bind (.liftExcept _) fun _ => .pure _)
      · exact .nothing (.bind (Plain.text n).extending fun _ => .pure _)
          (.bind (.text n) fun _ => .pure _)
      · contradiction
      · exact .nothing (.bind (Plain.subscript ctx n).extending fun _ => .pure _)
          (.bind (.subscript (by decide) ctx n) fun _ => .pure _)
      · exact .pure []
    exact quiet.congr fun m => by simp [hkind]

/-- What the values of nodes contain is logged by reading each of them. -/
theorem partsAll {ns : List Node}
    (h : ∀ n ∈ ns, Logs ctx known stays n.Contains (parts jump ctx n)) :
    Logs ctx known stays (Node.AnyContains ns) (partsAll jump ctx ns) := by
  induction ns with
  | nil => exact (Logs.pure []).congr fun m => by simp
  | cons n ns ih =>
    unfold Walk.partsAll
    have rest := ih fun m hm => h m (List.mem_cons_of_mem n hm)
    refine ((h n List.mem_cons_self).seq fun _ =>
      .before rest (fun _ => .pure _) fun _ => .pure _).congr fun m => ?_
    simp

theorem lastValue_of_parts {ns : List Node}
    (h : ∀ n ∈ ns, Logs ctx known stays n.Contains (parts jump ctx n)) :
    Logs ctx known stays (Node.AnyContains ns.getLast?.toList)
      (lastValue jump ctx ns) := by
  induction ns with
  | nil => exact .throw _
  | cons n ns ih =>
    cases ns with
    | nil =>
      unfold Walk.lastValue
      refine ((h n List.mem_cons_self).before (fun _ => ?_) fun _ => ?_).congr fun m => by simp
      · exact .bind (Plain.text n).extending fun _ => .pure _
      · exact .bind (.text n) fun _ => .pure _
    | cons k ks =>
      unfold Walk.lastValue
      rw [List.getLast?_cons_cons]
      exact ih fun m hm => h m (List.mem_cons_of_mem n hm)

/-- An assignment whose value is read, and more of them after it. -/
theorem assigned {n : Node} {ns : List Node} {next : Value → Walk α}
    (hkind : n.kind = .variableAssignment)
    (hvalue : Logs ctx known stays (Node.AnyContains n.children.getLast?.toList)
      (lastValue jump ctx n.children))
    (hnext : ∀ value, Logs ctx known stays (Node.AnyContains (Node.assignedValues ns))
      (next value)) :
    Logs ctx known stays (Node.AnyContains (Node.assignedValues (n :: ns)))
      (lastValue jump ctx n.children >>= next) := by
  refine (hvalue.seq hnext).congr fun m => ?_
  rw [Node.assignedValues_cons_assignment hkind, Node.anyContains_append]

theorem draftChildren_of_lastValue {ns : List Node} (draft : Draft)
    (h : ∀ n ∈ ns, Logs ctx known stays
      (Node.AnyContains n.children.getLast?.toList) (lastValue jump ctx n.children)) :
    Logs ctx known stays (Node.AnyContains (Node.assignedValues ns))
      (draftChildren jump ctx draft ns) := by
  induction ns generalizing draft with
  | nil => exact (Logs.pure draft).congr fun m => by simp [Node.assignedValues]
  | cons n ns ih =>
    have rest := fun draft => ih draft fun m hm => h m (List.mem_cons_of_mem n hm)
    by_cases hassign : n.kind = .variableAssignment
    · rw [draftChildren_cons_assignment hassign]
      refine .after (Plain.text n).extending (.text n) (.any _) fun written _ =>
        .after (.resolve _) (.resolve (by decide) _) (.any _) fun name _ =>
          .assigned hassign (h n List.mem_cons_self) fun value => ?_
      refine .after (Plain.recordAssignment _).extending (.recordAssignment (by decide) _) (.any _)
        fun _ _ => ?_
      exact .after (Plain.assignTaint _ _).extending (.assignTaint (by decide) _ _) (.any _)
        fun _ _ => rest draft
    · rw [Node.assignedValues_cons_other hassign]
      by_cases hname : n.kind = .commandName
      · rw [draftChildren_cons_name hname]
        exact .after (Plain.draftName draft n).extending (.draftName draft n) (.any _)
          fun draft _ => rest draft
      · rw [draftChildren_cons_other hassign hname]
        split
        · exact .after (Plain.draftArgument draft n).extending (.draftArgument draft n) (.any _)
            fun draft _ => rest draft
        · exact rest draft

include hjump

/-- The command that a node is, once the values of its assignments are logged. -/
theorem command_of_lastValue {n : Node} (hkind : n.kind = .command)
    (hstays : stays → n.RunsNoText)
    (h : ∀ c ∈ n.children, Logs ctx known stays
      (Node.AnyContains c.children.getLast?.toList) (lastValue jump ctx c.children)) :
    Logs ctx known stays
      (fun m => Node.AnyContains (Node.assignedValues n.children) m ∨ m = n ∧ n.IsNamedCommand)
      (command jump ctx n) := by
  unfold Walk.command
  refine (draftChildren_of_lastValue {} h).bind (draftChildren_returns jump ctx {} n.children) ?_
  rintro draft rfl
  exact .finish hjump hkind hstays

/-- A value is read to its last node: every command in it is logged. -/
theorem parts_and_lastValue {n : Node} (hstays : stays → n.Every Node.RunsNoText) :
    Logs ctx known stays n.Contains (parts jump ctx n) ∧
      Logs ctx known stays (Node.AnyContains n.children.getLast?.toList)
        (lastValue jump ctx n.children) := by
  induction n using Node.induction with
  | step n ih =>
    have below (c : Node) (hc : c ∈ n.children) :=
      ih c hc fun h => (Node.every_iff.1 (hstays h)).2 c hc
    refine ⟨?_, .lastValue_of_parts fun c hc => (below c hc).1⟩
    have children := partsAll fun c hc => (below c hc).1
    have own := ownPart fun hkind => command_of_lastValue hjump hkind
      (fun h => (Node.every_iff.1 (hstays h)).1) fun c hc => (below c hc).2
    obtain ⟨kind, written, row, column, endColumn, ns⟩ := n
    unfold Walk.parts
    refine (own.seq fun _ => .before children (fun _ => .pure _) fun _ => .pure _).congr fun m => ?_
    rw [Node.contains_iff]
    constructor
    · rintro (⟨-, ⟨v, hv, hm⟩ | hm⟩ | hm)
      · exact .inr (Node.contains_of_assignedValues hv hm)
      · exact .inl hm
      · exact .inr hm
    · rintro (⟨rfl, hm⟩ | hm)
      · exact .inl ⟨hm.1, .inr ⟨rfl, hm⟩⟩
      · exact .inr hm

theorem lastValue {n : Node} (hstays : stays → n.Every Node.RunsNoText) :
    Logs ctx known stays (Node.AnyContains n.children.getLast?.toList)
      (lastValue jump ctx n.children) :=
  (parts_and_lastValue hjump hstays).2

theorem command {n : Node} (hkind : n.kind = .command) (hstays : stays → n.Every Node.RunsNoText) :
    Logs ctx known stays
      (fun m => Node.AnyContains (Node.assignedValues n.children) m ∨ m = n ∧ n.IsNamedCommand)
      (command jump ctx n) :=
  command_of_lastValue hjump hkind (fun h => (Node.every_iff.1 (hstays h)).1) fun c hc =>
    lastValue hjump fun h => (Node.every_iff.1 (hstays h)).2 c hc

/-! ## Declarations and assignments -/

theorem assignment {n : Node} (hstays : stays → n.Every Node.RunsNoText) :
    Logs ctx known stays (Node.AnyContains n.children.getLast?.toList)
      (assignment jump ctx n) := by
  refine .after (Plain.text n).extending (.text n) (.any _) fun written _ =>
    .after (.resolve _) (.resolve (by decide) _) (.any _) fun name _ => ?_
  refine .after (Plain.when (.subscript ctx n)).extending (.when (.subscript (by decide) ctx n))
    (.any _) fun _ _ => ?_
  refine (lastValue hjump hstays).before (fun value => ?_) fun value => ?_
  · exact .bind (Plain.recordAssignment _).extending fun _ => (Plain.assignTaint _ _).extending
  · exact .bind (.recordAssignment (by decide) _) fun _ => .assignTaint (by decide) _ _

theorem declareLocals {n : Node} {ns : List Node} (locals : NameSet)
    (hstays : stays → ∀ c ∈ ns, c.Every Node.RunsNoText) :
    Logs ctx known stays (Node.AnyContains (Node.assignedValues ns))
      (declareLocals jump ctx n locals ns) := by
  have declareLocal {S : Node → Prop} {next : NameSet → Walk NameSet} (locals : NameSet)
      (name : String) (h : ∀ locals, Logs ctx known stays S (next locals)) :
      Logs ctx known stays S (declareLocal locals name >>= next) :=
    .after (Plain.declareLocal locals name).extending (.declareLocal (by decide) locals name)
      (.any _) fun locals _ => h locals
  induction ns generalizing locals with
  | nil => exact (Logs.pure locals).congr fun m => by simp [Node.assignedValues]
  | cons c cs ih =>
    have rest := fun locals => ih locals fun h m hm => hstays h m (List.mem_cons_of_mem c hm)
    unfold Walk.declareLocals
    split
    · rename_i hkind
      refine .after (Plain.text c).extending (.text c) (.any _) fun written _ =>
        .assigned hkind (lastValue hjump fun h => hstays h c List.mem_cons_self) fun value => ?_
      exact .after (Plain.assignTaint _ _).extending (.assignTaint (by decide) _ _) (.any _)
        fun _ _ => declareLocal locals _ rest
    · rename_i hkind
      rw [Node.assignedValues_cons_other (by simp [hkind])]
      exact .after (Plain.firstCharacter n).extending (.firstCharacter n) (.any _)
        fun _ _ => declareLocal locals _ rest
    · rename_i hassign _
      rw [Node.assignedValues_cons_other hassign]
      exact rest locals

theorem localDeclaration {n : Node} (hstays : stays → n.Every Node.RunsNoText) :
    Logs ctx known stays (Node.AnyContains (Node.assignedValues n.children))
      (localDeclaration jump ctx n) :=
  (declareLocals hjump ∅ fun h => (Node.every_iff.1 (hstays h)).2).before
    (fun _ => (Plain.retractAll _).extending) fun _ => .retractAll (by decide) _

end Values

theorem expansionStatement {runs : Bool} {n : Node} (hkind : n.kind.isExpansion = true) :
    Logs ctx known stays (fun m => m = n ∧ runs = true) (expansionStatement ctx runs n) := by
  refine .after (Plain.expansion ctx n).extending (.expansion (by decide) (by decide) ctx n)
    (.any _) fun _ _ => ?_
  unfold Walk.when
  split
  · rename_i hruns
    have hsite (name : String) :
        Command.site ⟨name, [], n.lineIn ctx, n.columnIn ctx⟩ = n.site ctx := by
      have hne : n.kind ≠ .command := fun h => by simp [h, Kind.isExpansion] at hkind
      simp [Command.site, Node.site, hne]
    exact .after (Plain.text n).extending (.text n) (.any _) fun written _ =>
      (Logs.recordCommand n (hsite _)).congr fun m => by simp [hruns]
  · rename_i hruns
    exact (Logs.pure ()).congr fun m => by simp [hruns]

end Logs

/-! ## Visits -/

/-- A first walk that records no command, and the state that it leaves behind. -/
theorem LogsFrom.after {next : α → Walk β} (hextending : Extending walk)
    (hkeeps : Keeps [.commands] walk)
    (hnext : ∀ a t, walk.exec s = (.ok a, t) → LogsFrom ctx known stays t S (next a)) :
    LogsFrom ctx known stays s S (walk >>= next) :=
  ((Logs.nothing hextending hkeeps s).bind hnext).congr fun _ => or_iff_right id

/-- A first walk that leaves the tree, and the state that it leaves behind. -/
theorem LogsFrom.elsewhere {next : α → Walk β} (hextending : Extending walk) (hstays : ¬stays)
    (hnext : ∀ a t, walk.exec s = (.ok a, t) → LogsFrom ctx known stays t S (next a)) :
    LogsFrom ctx known stays s S (walk >>= next) :=
  ((Logs.leaves hextending hstays s).bind hnext).congr fun _ => or_iff_right id

section Visits

variable {parse? : String → Option Node} {budget : Nat}

/-- The walk of a place, wherever what may have been called before is accounted for, logs
what the place sees. -/
def Covers (parse? : String → Option Node) (budget : Nat) (ctx : Context) (known : List String)
    (stays : Prop) (n : Node) : Prop :=
  ∀ called runs s, Accounted known called s →
    LogsFrom ctx known stays s (Place.Sees known ⟨called, runs, n⟩)
      (visit (follow parse? budget) ctx runs n)

variable {called : List String} {first : Bool} {ns : List Node}

theorem covers_visitAll {parent : Kind} (hcalled : Accounted known called s)
    (h : ∀ n ∈ ns, Covers parse? budget ctx known stays n) :
    LogsFrom ctx known stays s (Place.AnySees known (Place.ofChildren known parent called first ns))
      (visitAll (follow parse? budget) ctx parent first ns) := by
  induction ns generalizing called first s with
  | nil => exact (Logs.pure () s).congr fun m => by simp [Place.ofChildren]
  | cons n ns ih =>
    unfold Walk.visitAll
    refine ((h n List.mem_cons_self called _ s hcalled).bind fun _ t hexec => ?_).congr fun m =>
      Place.anySees_cons.symm
    exact ih (accounted_visit hcalled hexec) fun m hm => h m (List.mem_cons_of_mem n hm)

theorem covers_visitBranches {parent : Kind} (hcalled : Accounted known called s)
    (h : ∀ n ∈ ns, Covers parse? budget ctx known stays n) :
    LogsFrom ctx known stays s (Place.AnySees known (Place.ofChildren known parent called first ns))
      (visitBranches (follow parse? budget) ctx parent first ns) := by
  induction ns generalizing called first s with
  | nil => exact (Logs.pure () s).congr fun m => by simp [Place.ofChildren]
  | cons n ns ih =>
    unfold Walk.visitBranches
    refine ((h n List.mem_cons_self called _ s hcalled).joinTaint.bind fun _ t hexec => ?_).congr
      fun m => Place.anySees_cons.symm
    refine ih ?_ fun m hm => h m (List.mem_cons_of_mem n hm)
    obtain ⟨u, hvisit, rfl⟩ := exec_joinTaint_ok hexec
    have hvisited := accounted_visit hcalled hvisit
    exact hvisited

/-- A command whose name is not a shell's: whether it is a call that goes on behind the name, a
call that ends the visit, or no call, `more` logs what is seen behind the name. -/
theorem covers_call {n : Node} {name : String} {runs : Bool} {ps : List Place}
    {next : Option Function → Walk Unit} {visitName more : Walk Unit}
    (hcalled : Accounted known called s) (hname : n.calls? = some name) (hshell : name ∉ shells)
    (hleaves : name ∈ known → ¬stays) (hvisit : Extending visitName) (hextending : Extending more)
    (hnext : LogsFrom ctx known stays s
      (fun m =>
        Place.Sees known ⟨called, runs, n⟩ m ∨ Place.AnySees known (Place.visited known ps) m)
      (visitName >>= fun _ => more))
    (hmore : ∀ {t}, Accounted known (called ++ n.callees known) t →
      LogsFrom ctx known stays t (Place.AnySees known (Place.visited known ps)) more)
    (hnone : next none = (visitName >>= fun _ => more))
    (hsome : ∀ f : Function, next (some f) =
      if f.entered then Pure.pure () else do
        enter name
        follow parse? budget (.body f.body { ctx with function := name })
        more) :
    LogsFrom ctx known stays s
      (Place.AnySees known (Place.visited known (⟨called, runs, n⟩ :: ps)))
      (lookup name >>= next) := by
  have jumps := follow_extending parse? budget
  have body (f : Function) : Extending (next (some f)) := by
    rw [hsome]
    split
    · exact .pure ()
    · exact .bind (.enter name) fun _ => .bind (jumps _).extending fun _ => hextending
  have hlast : Place.isLast known ⟨called, runs, n⟩ = true ↔ _ := Place.isLast_iff hname
  by_cases hcall : name ∈ known
  · by_cases hbefore : name ∈ called
    · rw [Place.visited_cons_of_isLast (hlast.2 (.inr ⟨hcall, hbefore⟩))]
      refine (Logs.leaves ?_ (hleaves hcall) s).congr fun m => by simp
      refine .bind (Composed.lookup name).extending fun f? => ?_
      cases f? with
      | some f => exact body f
      | none =>
        rw [hnone]
        exact .bind hvisit fun _ => hextending
    · have hgoes : Place.isLast known ⟨called, runs, n⟩ = false := by
        rw [Bool.eq_false_iff, Ne, hlast]
        exact fun h => h.elim hshell fun h => hbefore h.2
      rw [Place.visited_cons hgoes, if_pos ((Place.isCall_iff hname).2 hcall)]
      refine .lookup ?_ body fun _ f hf => ?_
      · rw [hnone]
        exact hnext.weaken (hleaves hcall) fun m => .inr
      · rw [hsome, if_neg (by simp [hcalled.not_entered hcall hbefore hf]), ← bind_assoc]
        refine .elsewhere ?_ (hleaves hcall) fun _ u hexec =>
          hmore (accounted_call hcalled hname hf hexec)
        exact .bind (.enter name) fun _ => (jumps _).extending
  · have hgoes : Place.isLast known ⟨called, runs, n⟩ = false := by
      rw [Bool.eq_false_iff, Ne, hlast]
      exact fun h => h.elim hshell fun h => hcall h.1
    rw [Place.visited_cons hgoes, if_neg fun h => hcall ((Place.isCall_iff hname).1 h)]
    refine .lookup ?_ body fun hknown => absurd hknown hcall
    rw [hnone]
    exact hnext.congr fun m => Place.anySees_cons.symm

/-- The visit of a command's children ends where the places say. -/
theorem covers_visitCommand (hcalled : Accounted known called s)
    (h : ∀ n ∈ ns, Covers parse? budget ctx known stays n)
    (hstays : stays → ∀ n ∈ ns, n.Calls (· ∉ known)) :
    LogsFrom ctx known stays s
      (Place.AnySees known
        (Place.visited known (Place.ofChildren known .command called first ns)))
      (visitCommand (follow parse? budget) ctx first ns) := by
  induction ns generalizing called first s with
  | nil => exact (Logs.pure () s).congr fun m => by simp [Place.ofChildren, Place.visited]
  | cons n ns ih =>
    have jumps := follow_extending parse? budget
    let p : Place := ⟨called, Kind.command.runsChild first, n⟩
    let ps := Place.ofChildren known .command (called ++ n.callees known) false ns
    show LogsFrom ctx known stays s (Place.AnySees known (Place.visited known (p :: ps))) _
    have rest {t : State} (ht : Accounted known (called ++ n.callees known) t) :
        LogsFrom ctx known stays t (Place.AnySees known (Place.visited known ps))
          (visitCommand (follow parse? budget) ctx false ns) :=
      ih ht (fun m hm => h m (List.mem_cons_of_mem n hm)) fun hs m hm =>
        hstays hs m (List.mem_cons_of_mem n hm)
    have next : LogsFrom ctx known stays s
        (fun m => p.Sees known m ∨ Place.AnySees known (Place.visited known ps) m)
        (visit (follow parse? budget) ctx (Kind.command.runsChild first) n >>= fun _ =>
          visitCommand (follow parse? budget) ctx false ns) :=
      (h n List.mem_cons_self called _ s hcalled).bind fun _ t hexec =>
        rest (accounted_visit hcalled hexec)
    unfold Walk.visitCommand
    split
    · rename_i hkind
      rw [Place.visited_cons_of_isLast (by simp [Place.isLast, p, hkind])]
      exact (Logs.pure () s).congr fun m => by simp
    · rename_i hkind
      refine .after (Plain.callee n).extending (.callee n) fun name t hcallee => ?_
      obtain rfl : t = s := (Asks.callee n).same hcallee
      have hname : n.calls? = some name := callee_returns hkind t name t hcallee
      split
      · rename_i hshell
        rw [Place.visited_cons_of_isLast
          ((Place.isLast_iff hname).2 (.inl (List.contains_iff_mem.1 hshell)))]
        exact (Logs.pure () t).congr fun m => by simp
      · rename_i hshell
        refine covers_call hcalled hname (fun h => hshell (List.contains_iff_mem.2 h))
          (fun hknown hs => (hstays hs n List.mem_cons_self).2 name hname hknown)
          (Composed.visit jumps ctx _ n).extending ?_ next rest rfl fun _ => rfl
        exact (Composed.visitCommand_of_visit jumps ctx fun m _ runs =>
          .visit jumps ctx runs m).extending
    · rename_i hassign hname
      have hcalls : n.calls? = none := if_neg hname
      have hgoes : p.isLast known = false := by
        simpa [Place.isLast, Place.isCall, p, hcalls] using hassign
      rw [Place.visited_cons hgoes]
      exact next.congr fun m => by simp [Place.isCall, p, hcalls]

theorem covers_visit {n : Node} (hstays : stays → n.Every (Node.Calls (· ∉ known))) :
    Covers parse? budget ctx known stays n := by
  induction n using Node.induction with
  | step n ih =>
    intro called runs s hcalled
    have jumps := follow_extending parse? budget
    have below (c : Node) (hc : c ∈ n.children) : Covers parse? budget ctx known stays c :=
      ih c hc fun h => (Node.every_iff.1 (hstays h)).2 c hc
    have quiet : stays → n.Every Node.RunsNoText := fun h => (hstays h).imp fun _ h => h.1
    have own : stays → ∀ c ∈ n.children, c.Calls (· ∉ known) :=
      fun h c hc => (Node.every_iff.1 ((Node.every_iff.1 (hstays h)).2 c hc)).1
    have closed {walk : Walk Unit}
        (hkind : n.kind ∈ [.functionDefinition, .testCommand, .arithmeticExpansion, .subscript])
        (hextending : Extending walk) (hkeeps : Keeps [.commands] walk) (t : State) :
        LogsFrom ctx known stays t (Place.Sees known ⟨called, runs, n⟩) walk :=
      (Logs.nothing hextending hkeeps t).congr fun m => by
        simp [Place.not_sees_of_closed (p := ⟨called, runs, n⟩) hkind]
    have hsees (m : Node) : Place.Sees known ⟨called, runs, n⟩ m ↔ _ := Place.sees_iff
    obtain ⟨kind, written, row, column, endColumn, ns⟩ := n
    unfold Walk.visit
    refine .after Composed.countVisit.extending (.countVisit (by decide)) fun _ t hcount => ?_
    have hcalled := hcalled.of_keeps (.countVisit (by decide)) hcount
    split
    · exact closed (by simp) (Composed.defineFunction ns).extending
        (.defineFunction (by decide) ns) t
    · refine (((Logs.command jumps rfl quiet) t).bind fun c u hcommand =>
        covers_visitCommand (accounted_command hcalled rfl hcommand) below own).congr fun m => ?_
      simp only [hsees, Node.readValues, Place.opens, Kind.isExpansion]
      grind
    · exact closed (by simp)
        (.bind (Plain.opener ns).extending fun _ => (Plain.test ctx _ false _).extending)
        (.bind (.opener ns) fun _ =>
          .test (by decide) (by decide) (by decide) (by decide) ctx _ false _) t
    · exact closed (by simp)
        (.bind (Plain.opener ns).extending fun _ => (Plain.arithmetic ctx _ false _).extending)
        (.bind (.opener ns) fun _ => .arithmetic (by decide) (by decide) ctx _ false _) t
    · refine .after (Plain.declarePairs ctx ns).extending (.declarePairs (by decide) ctx ns)
        fun _ u hpairs =>
          .after (Plain.isLocal ns).extending (.isLocal ns) fun isLocal v hlocal => ?_
      have hcalled := hcalled.of_keeps (.declarePairs (by decide) ctx ns) hpairs
      obtain rfl : v = u := (Asks.isLocal ns).same hlocal
      have hhead := isLocal_returns ns v isLocal v hlocal
      split
      · refine (Logs.localDeclaration jumps quiet v).congr fun m => ?_
        simp_all [Node.IsNamedCommand, Node.readValues, Place.opens, Kind.isExpansion, Node.IsLocal]
      · refine (covers_visitAll hcalled below).congr fun m => ?_
        simp_all [Node.IsNamedCommand, Node.readValues, Place.opens, Kind.isExpansion, Node.IsLocal]
    · refine (Logs.assignment jumps quiet t).congr fun m => ?_
      simp [hsees, Node.IsNamedCommand, Node.readValues, Place.opens, Kind.isExpansion]
    · exact closed (by simp) (Plain.subscript ctx _).extending (.subscript (by decide) ctx _) t
    · refine (covers_visitBranches hcalled below).congr fun m => ?_
      simp [hsees, Node.IsNamedCommand, Node.readValues, Place.opens, Kind.isExpansion]
    · refine (covers_visitBranches hcalled below).congr fun m => ?_
      simp [hsees, Node.IsNamedCommand, Node.readValues, Place.opens, Kind.isExpansion]
    · split
      · rename_i hkind
        refine (Logs.expansionStatement hkind t).congr fun m => ?_
        simp_all [Node.IsNamedCommand, Node.readValues, Place.opens]
      · refine (covers_visitAll hcalled below).congr fun m => ?_
        simp_all [Node.IsNamedCommand, Node.readValues, Place.opens]

end Visits

end

/-! ## Scripts -/

/-- The commands of a script are those that its root sees. All of them are recorded where they
stand. As long as no command calls a function of the script or runs a text in a shell, nothing
else is recorded. -/
theorem script_records_seen_commands (g : Grammar) (text : String) (root : Node) (t : State)
    (hroot : g.parse? text = some root) (hrun : (script g text).exec {} = (.ok (), t)) :
    let known := t.functions.names
    (∀ m, Place.Sees known ⟨[], false, root⟩ m → ∃ c ∈ t.commands, c.site = m.site {}) ∧
      (root.Every (Node.Calls (· ∉ known)) →
        ∀ c ∈ t.commands, ∃ m, Place.Sees known ⟨[], false, root⟩ m ∧ c.site = m.site {}) := by
  intro known
  rw [exec_script, hroot] at hrun
  simp only [scriptWithin, Option.elim, hroot] at hrun
  have hbegun : Accounted known [] {} := .inr ⟨fun hf => absurd hf List.not_mem_nil,
    fun f hf => absurd hf List.not_mem_nil⟩
  have hcovers : Covers g.parse? (g.budget root.load) {} known
      (root.Every (Node.Calls (· ∉ known))) root := covers_visit id
  obtain ⟨added, hadded, hseen, honly⟩ := (hcovers [] false {} hbegun () t hrun).2 fun _ h => h
  rw [hadded]
  exact ⟨hseen, honly⟩

/-- The tree of `$(id)`. -/
def idSubstitution (start : Nat) : Tree :=
  ⟨.commandSubstitution, start, start + 5,
    [⟨.other "$(", start, start + 2, []⟩,
      ⟨.command, start + 2, start + 4,
        [⟨.commandName, start + 2, start + 4, [⟨.word, start + 2, start + 4, []⟩]⟩]⟩,
      ⟨.other ")", start + 4, start + 5, []⟩]⟩

/-- The script `f(){ :;};f $(id);f`. -/
def calledTwice : String := "f()\x7b :;\x7d;f $(id);f"

def calledTwiceTree : Tree :=
  ⟨.program, 0, 18,
    [⟨.functionDefinition, 0, 8,
        [⟨.word, 0, 1, []⟩,
          ⟨.compoundStatement, 3, 8,
            [⟨.command, 5, 6, [⟨.commandName, 5, 6, [⟨.word, 5, 6, []⟩]⟩]⟩]⟩]⟩,
      ⟨.command, 9, 16, [⟨.commandName, 9, 10, [⟨.word, 9, 10, []⟩]⟩, idSubstitution 11]⟩,
      ⟨.command, 17, 18, [⟨.commandName, 17, 18, [⟨.word, 17, 18, []⟩]⟩]⟩]⟩

def calledTwiceTable : Grammar := ⟨[(calledTwice, some calledTwiceTree)]⟩

def calledTwiceRoot : Node := calledTwiceTree.resolve (Tree.bytes calledTwice)

/-- What the first call of a function is given is seen. -/
theorem script_records_seen_commands_calledTwice :
    ((script calledTwiceTable calledTwice).exec {}).1 = .ok () ∧
      ∃ m, m.draft.name = "id" ∧ Place.Sees ["f"] ⟨[], false, calledTwiceRoot⟩ m ∧
        ∃ c ∈ ((script calledTwiceTable calledTwice).exec {}).2.commands, c.site = m.site {} := by
  have hok : ((script calledTwiceTable calledTwice).exec {}).1 = .ok () := by decide +kernel
  have hknown : ((script calledTwiceTable calledTwice).exec {}).2.functions.names = ["f"] := by
    decide +kernel
  have hpath : ∃ call ∈ Place.opens ["f"] ⟨[], false, calledTwiceRoot⟩, ∃ argument ∈ call.opens ["f"],
      ∃ command ∈ argument.opens ["f"],
        command.node.IsNamedCommand ∧ command.node.draft.name = "id" := by decide +kernel
  obtain ⟨call, hcall, argument, hargument, command, hcommand, hnamed, hname⟩ := hpath
  have hsees : Place.Sees ["f"] ⟨[], false, calledTwiceRoot⟩ command.node :=
    .child hcall (.child hargument (.child hcommand (.command hnamed)))
  have hrecorded := script_records_seen_commands calledTwiceTable calledTwice calledTwiceRoot _
    (by simp [Grammar.parse?, Grammar.tree?, calledTwiceTable, calledTwiceRoot]) (Prod.ext hok rfl)
  rw [hknown] at hrecorded
  exact ⟨hok, command.node, hname, hsees, hrecorded.1 command.node hsees⟩

/-! ## Commands that are not seen -/

end Walk

namespace Node

mutual

/-- The node and the nodes below it that stand in no function definition. -/
def outside : Node → List Node
  | node@⟨kind, _, _, _, _, children⟩ =>
    node :: if kind = .functionDefinition then [] else outsideOf children

def outsideOf : List Node → List Node
  | [] => []
  | n :: ns => outside n ++ outsideOf ns

end

end Node

namespace Walk

/-- Scripts with the command `id` behind an assignment, in a test, in arithmetic, in an
expansion and behind the second call of a function. -/
def hidingScripts : List (String × Tree) :=
  [("X=1 echo $(id)",
      ⟨.program, 0, 14,
        [⟨.command, 0, 14,
          [⟨.variableAssignment, 0, 3,
              [⟨.variableName, 0, 1, []⟩, ⟨.other "=", 1, 2, []⟩, ⟨.number, 2, 3, []⟩]⟩,
            ⟨.commandName, 4, 8, [⟨.word, 4, 8, []⟩]⟩, idSubstitution 9]⟩]⟩),
    ("[[ $(id) ]]",
      ⟨.program, 0, 11,
        [⟨.testCommand, 0, 11,
          [⟨.other "[[", 0, 2, []⟩, idSubstitution 3, ⟨.other "]]", 9, 11, []⟩]⟩]⟩),
    ("echo $(( $(id) ))",
      ⟨.program, 0, 17,
        [⟨.command, 0, 17,
          [⟨.commandName, 0, 4, [⟨.word, 0, 4, []⟩]⟩,
            ⟨.arithmeticExpansion, 5, 17,
              [⟨.other "$((", 5, 8, []⟩, idSubstitution 9, ⟨.other "))", 15, 17, []⟩]⟩]⟩]⟩),
    ("echo $\x7bx:-$(id)\x7d",
      ⟨.program, 0, 16,
        [⟨.command, 0, 16,
          [⟨.commandName, 0, 4, [⟨.word, 0, 4, []⟩]⟩,
            ⟨.expansion, 5, 16,
              [⟨.other "$\x7b", 5, 7, []⟩, ⟨.variableName, 7, 8, []⟩, ⟨.other ":-", 8, 10, []⟩,
                idSubstitution 10, ⟨.other "\x7d", 15, 16, []⟩]⟩]⟩]⟩),
    ("f() \x7b :; \x7d; f; f $(id)",
      ⟨.program, 0, 22,
        [⟨.functionDefinition, 0, 10,
            [⟨.word, 0, 1, []⟩,
              ⟨.compoundStatement, 4, 10,
                [⟨.command, 6, 7, [⟨.commandName, 6, 7, [⟨.word, 6, 7, []⟩]⟩]⟩]⟩]⟩,
          ⟨.command, 12, 13, [⟨.commandName, 12, 13, [⟨.word, 12, 13, []⟩]⟩]⟩,
          ⟨.command, 15, 22, [⟨.commandName, 15, 16, [⟨.word, 15, 16, []⟩]⟩, idSubstitution 17]⟩]⟩)]

/-- The command `id` stands in the script outside of function definitions, the script is walked
to its end, and no command is recorded where it stands. -/
def hidesCommand (text : String) (tree : Tree) : Bool :=
  let outcome := (script ⟨[(text, some tree)]⟩ text).exec {}
  outcome.1 = .ok () ∧
    ∃ m ∈ (tree.resolve (Tree.bytes text)).outside, m.IsNamedCommand ∧ m.draft.name = "id" ∧
      ∀ c ∈ outcome.2.commands, c.site ≠ m.site {}

theorem commands_not_recorded : (hidingScripts.all fun p => hidesCommand p.1 p.2) = true := by
  decide +kernel

end Walk

end ShellAudit
