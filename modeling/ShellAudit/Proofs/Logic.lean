-- SUMMARY: A logic of walks: what a walk keeps, what it returns, and which faults may stop it.
import ShellAudit.Proofs.Draft
import ShellAudit.Proofs.Entries
import ShellAudit.Proofs.Growth

/-!
# A logic of walks

`Ensures E I walk Q` says of a walk that it keeps the invariant `I` of the state,
returns something that satisfies `Q`, and stops with no fault but those in `E`.

Whether a walk does is decided by its single steps, and a single step is about one
node: it asks the node for something that it may lack (`Node.Lacks`), looks up a name
that the node shows (`Node.lookups`), makes a record for it (`Makes`), or taints a name
for it (`Taints`). So an invariant is upheld if each of these steps keeps it on the nodes
that are walked, which is `Upheld`, and if calls of functions keep it, which is
`UpheldByVisits`.
-/

namespace ShellAudit

namespace Node

/-- The names that a walk looks up when it comes to a node. -/
def lookups (n : Node) : List String :=
  match n.kind with
  | .variableName => n.text.toList
  | .variableAssignment =>
    (n.text.map fun text => String.ofList (Text.beforeEquals text.toList)).toList
  | .command => n.draft.name :: if n.draft.name = "read" then n.draft.arguments else []
  | _ => []

/-- The second node is the first or stands below it. -/
inductive Below : Node → Node → Prop
  | self (n : Node) : Below n n
  | child {n c m : Node} : c ∈ n.children → Below c m → Below n m

theorem Below.step {n m c : Node} (h : n.Below m) (hc : c ∈ m.children) : n.Below c := by
  induction h with
  | self n => exact .child hc (.self c)
  | child hchild _ ih => exact .child hchild (ih hc)

theorem Every.and {p q : Node → Prop} {n : Node} (hp : n.Every p) (hq : n.Every q) :
    n.Every fun m => p m ∧ q m := by
  induction n using Node.induction with
  | step n ih =>
    rw [every_iff] at hp hq ⊢
    exact ⟨⟨hp.1, hq.1⟩, fun c hc => ih c hc (hp.2 c hc) (hq.2 c hc)⟩

theorem Every.below {p : Node → Prop} {n m : Node} (h : n.Every p) (hm : n.Below m) : p m := by
  induction hm with
  | self n => exact (every_iff.1 h).1
  | child hc _ ih => exact ih ((every_iff.1 h).2 _ hc)

end Node

/-- Kinds of nodes whose walk looks at their first or their last child. -/
def Kind.asksForChildren : Kind → Bool
  | .commandName | .variableAssignment | .testCommand | .arithmeticExpansion
  | .declarationCommand => true
  | _ => false

/-- Kinds of nodes that a walk makes records for. -/
def Kind.isRecorded : Kind → Bool
  | .command | .variableName | .variableAssignment | .subscript | .concatenation => true
  | kind => kind.isExpansion

theorem Kind.isRecorded_of_isExpansion {kind : Kind} (h : kind.isExpansion = true) :
    kind.isRecorded = true := by
  unfold isRecorded
  split <;> first | rfl | exact h

instance (priority := 1100) decidableEqExcept {ε α : Type} [DecidableEq ε] [DecidableEq α] :
    DecidableEq (Except ε α)
  | .ok a, .ok b => decidable_of_iff (a = b) ⟨congrArg Except.ok, Except.ok.inj⟩
  | .error e, .error f => decidable_of_iff (e = f) ⟨congrArg Except.error, Except.error.inj⟩
  | .ok _, .error _ => .isFalse fun h => by cases h
  | .error _, .ok _ => .isFalse fun h => by cases h

namespace Node

/-- The first word of a function definition is there and not empty. -/
def isNamed (n : Node) : Bool := (n.children.find? (·.kind = .word)).any (·.text ≠ some "")

/-- The name of the function that a node defines. -/
def defines? (n : Node) : Option String :=
  if n.kind = .functionDefinition then (n.children.find? (·.kind = .word)).bind (·.text) else none

/-- What the name of a command calls. -/
def calls? (n : Node) : Option String :=
  if n.kind = .commandName then n.children.head?.bind (·.text) else none

/-- What a node lacks that a walk asks of it, as the fault that stops the walk. -/
inductive Lacks (n : Node) : Fault → Prop
  | text : n.text = none → Lacks n .notText
  | child : n.kind.asksForChildren = true → n.children = [] → Lacks n .missingChild
  | parameter : n.kind = .expansion → Walk.parameter? n = .ok none → Lacks n .unnamedExpansion
  | name : n.kind = .functionDefinition → n.isNamed = false → Lacks n .unnamedFunction
  | declaration : n.kind = .declarationCommand → n.text = some "" → Lacks n .emptyDeclaration

/-- The node has all that a walk asks of it. -/
def Complete (n : Node) : Prop := ∀ fault, ¬n.Lacks fault

theorem complete_iff {n : Node} :
    n.Complete ↔ n.text ≠ none ∧
      (n.kind.asksForChildren = true → n.children ≠ []) ∧
      (n.kind = .expansion → Walk.parameter? n ≠ .ok none) ∧
      (n.kind = .functionDefinition → n.isNamed = true) ∧
      (n.kind = .declarationCommand → n.text ≠ some "") := by
  constructor
  · intro h
    exact ⟨fun htext => h _ (.text htext), fun hasks hempty => h _ (.child hasks hempty),
      fun hkind hname => h _ (.parameter hkind hname),
      fun hkind => Bool.not_eq_false _ ▸ fun hname => h _ (.name hkind hname),
      fun hkind htext => h _ (.declaration hkind htext)⟩
  · rintro ⟨htext, hchild, hparameter, hname, hdeclaration⟩ fault hlacks
    cases hlacks with
    | text h => exact htext h
    | child hasks h => exact hchild hasks h
    | parameter hkind h => exact hparameter hkind h
    | name hkind h => exact absurd (h.symm.trans (hname hkind)) Bool.false_ne_true
    | declaration hkind h => exact hdeclaration hkind h

instance (n : Node) : Decidable n.Complete := decidable_of_iff' _ complete_iff

end Node

/-- The variable that an expansion reads. -/
def Node.reads? (n : Node) : Option String :=
  match n.kind with
  | .expansion => (Walk.parameter? n).toOption.join
  | .simpleExpansion =>
    n.text.map fun written => String.ofList (Text.trim (· = '$') written.toList)
  | _ => none

/-- The part is the output of a command, or the variable of an expansion at or below
the node. -/
def Part.From (n : Node) (p : Part) : Prop :=
  (∃ c, p = .output c) ∨
    ∃ m, n.Below m ∧ p.name? = m.reads? ∧ p.frame? = some (Walk.frameOf m)

theorem Part.From.parent {n c : Node} {p : Part} (hc : c ∈ n.children) (h : p.From c) :
    p.From n := by
  rcases h with h | ⟨m, hm, hname, hframe⟩
  · exact .inl h
  · exact .inr ⟨m, .child hc hm, hname, hframe⟩

/-- The command tells a shell to run the text. -/
structure Node.Runs (n : Node) (script : String) : Prop where
  command : n.kind = .command
  shell : n.draft.name ∈ Walk.shells
  argument : Walk.scriptArgument? n.draft.arguments = some script

namespace Scope

/-- What a written name can mean: itself, or a qualified name that ends in it. -/
def Means (written name : String) : Prop :=
  name = written ∨ 0 < depth name ∧ baseName name = written

theorem means_of_qualified? {scope : NameSet} {written name : String}
    (h : qualified? scope written = some name) : Means written name :=
  .inr (mem_of_qualified? h).2

/-- A name without a dot is meant by itself only. -/
theorem Means.eq_of_undotted {written name : String} (h : Means written name)
    (hdepth : depth name = 0) : written = name := by
  rcases h with h | ⟨hdotted, -⟩
  · exact h.symm
  · exact absurd hdepth (Nat.ne_of_gt hdotted)

end Scope

namespace Walk

/-- A result that is as asked for, or a fault that is allowed. -/
def Allowed {α : Type} (E : Fault → Prop) (Q : α → Prop) : Except Fault α → Prop
  | .ok a => Q a
  | .error fault => E fault

/-- The walk keeps the invariant, returns what is asked for, and stops with allowed
faults only. -/
def Ensures (E : Fault → Prop) (I : State → Prop) {α : Type} (walk : Walk α) (Q : α → Prop) :
    Prop :=
  ∀ s, I s → I (walk.exec s).2 ∧ Allowed E Q (walk.exec s).1

/-- Asks nothing of a result. -/
def anything {α : Type} (_ : α) : Prop := True

namespace Ensures

variable {E : Fault → Prop} {I : State → Prop} {α β : Type} {walk : Walk α} {P Q : α → Prop}

theorem pure {a : α} (h : Q a) : Ensures E I (pure a) Q := fun _ hs => ⟨hs, h⟩

theorem throw {fault : Fault} (h : E fault) : Ensures E I (throw fault : Walk α) Q :=
  fun _ hs => ⟨hs, h⟩

theorem modify {f : State → State} (h : ∀ s, I s → I (f s)) : Ensures E I (modify f) anything :=
  fun s hs => ⟨h s hs, trivial⟩

theorem bind {next : α → Walk β} {R : β → Prop} (h : Ensures E I walk P)
    (hnext : ∀ a, P a → Ensures E I (next a) R) : Ensures E I (walk >>= next) R := by
  intro s hs
  obtain ⟨ht, hresult⟩ := h s hs
  rw [exec_bind]
  rcases hexec : walk.exec s with ⟨fault | a, t⟩ <;> rw [hexec] at ht hresult
  · exact ⟨ht, hresult⟩
  · exact hnext a hresult t ht

theorem weaken (h : Ensures E I walk P) (hPQ : ∀ a, P a → Q a) : Ensures E I walk Q := by
  intro s hs
  obtain ⟨ht, hresult⟩ := h s hs
  refine ⟨ht, ?_⟩
  rcases hexec : (walk.exec s).1 with fault | a <;> rw [hexec] at hresult
  · exact hresult
  · exact hPQ a hresult

theorem allowing {E' : Fault → Prop} (h : Ensures E I walk Q) (hE : ∀ fault, E fault → E' fault) :
    Ensures E' I walk Q := by
  intro s hs
  obtain ⟨ht, hresult⟩ := h s hs
  refine ⟨ht, ?_⟩
  rcases hexec : (walk.exec s).1 with fault | a <;> rw [hexec] at hresult
  · exact hE fault hresult
  · exact hresult

/-- What every result satisfies may be asked for. -/
theorem returning (h : Ensures E I walk P) (hQ : Returns walk Q) :
    Ensures E I walk fun a => P a ∧ Q a := by
  intro s hs
  obtain ⟨ht, hresult⟩ := h s hs
  refine ⟨ht, ?_⟩
  rcases hexec : walk.exec s with ⟨fault | a, t⟩ <;> rw [hexec] at hresult
  · exact hresult
  · exact ⟨hresult, hQ s a t hexec⟩

theorem when {p : Prop} [Decidable p] {step : Walk Unit} (h : p → Ensures E I step anything) :
    Ensures E I (when p step) anything := by
  unfold Walk.when
  split
  · exact h ‹p›
  · exact .pure trivial

theorem liftExcept {x : Except Fault α} (h : Allowed E Q x) : Ensures E I (liftExcept x) Q :=
  fun _ hs => ⟨hs, h⟩

/-- A fault that is recovered from need not be allowed, unless it is the exhaustion
of the budget. -/
theorem recovering {E' : Fault → Prop} {step recover : Walk Unit} (h : Ensures E' I step anything)
    (hspent : E' .exhausted → E .exhausted)
    (hrecover : ∀ fault, E' fault → fault ≠ .exhausted → Ensures E I recover anything) :
    Ensures E I (recovering step recover) anything := by
  intro s hs
  obtain ⟨ht, hresult⟩ := h s hs
  unfold Walk.recovering
  rw [exec_tryCatch]
  rcases hexec : step.exec s with ⟨fault | a, t⟩ <;> rw [hexec] at ht hresult
  · simp only
    split
    · rename_i hfault
      subst hfault
      exact ⟨ht, hspent hresult⟩
    · rename_i hfault
      exact hrecover fault hresult hfault t ht
  · exact ⟨ht, trivial⟩

end Ensures

/-! ## Invariants -/

/-- Where a walk takes the text that a command runs to stand: behind the name one blank,
`-c`, a blank and a quote are expected, and the column of the context counts twice. -/
def scriptContext (ctx : Context) (n : Node) : Context :=
  { function := ctx.function
    line := n.lineIn ctx
    column := ctx.column + (ctx.column + n.draft.column) + n.draft.name.length + 1 + 4 }

/-- What a walk can record when it comes to a node. `M` tells which names a written
name can be recorded under. -/
inductive Makes (M : String → String → Prop) (ctx : Context) (n : Node) : Entry → Prop
  | use {written : String} : n.kind.isExpansion = true → n.text = some written →
      Makes M ctx n (.use ⟨written, n.lineIn ctx, n.columnIn ctx⟩)
  | subscript {array index : String} : n.kind.isRecorded = true →
      Makes M ctx n (.subscript ⟨array, index, n.lineIn ctx + 1, n.columnIn ctx⟩)
  | runExpansion {name : String} : n.kind.isExpansion = true →
      Makes M ctx n (.command ⟨name, [], n.lineIn ctx, n.columnIn ctx⟩)
  | command {name : String} : n.kind = .command → n.draft.name ≠ "" → M n.draft.name name →
      Makes M ctx n
        (.command ⟨name, n.draft.arguments, n.lineIn ctx, ctx.column + n.draft.column⟩)
  | assignment {written name : String} {value : Value} {forCommand : Bool} :
      n.kind = .variableAssignment → n.text = some written →
      M (String.ofList (Text.beforeEquals written.toList)) name → (∀ p ∈ value.parts, p.From n) →
      Makes M ctx n (.assignment ⟨name, some value, n.lineIn ctx, n.columnIn ctx, forCommand⟩)
  | input {argument name : String} : n.kind = .command → n.draft.name = "read" →
      argument ∈ n.draft.arguments → M argument name →
      Makes M ctx n
        (.assignment ⟨name, some ⟨"", [.input]⟩, n.lineIn ctx, n.columnIn ctx, false⟩)
  | injectable {written name opener : String} : n.kind = .variableName → n.text = some written →
      M written name → Makes M ctx n (.injectable ⟨name, n.lineIn ctx, n.columnIn ctx, opener⟩)
  | pair {first second : String} : n.kind = .concatenation →
      Makes M ctx n (.pair ⟨first, second, n.lineIn ctx, n.columnIn ctx⟩)

theorem State.functions_eq {s t : State} (h : t.records = s.records) :
    t.functions = s.functions := by
  show t.records.functions = s.records.functions
  rw [h]

theorem Makes.isRecorded {M : String → String → Prop} {ctx : Context} {n : Node} {e : Entry}
    (h : Makes M ctx n e) : n.kind.isRecorded = true := by
  cases h with
  | use hkind | runExpansion hkind => exact Kind.isRecorded_of_isExpansion hkind
  | subscript hkind => exact hkind
  | command hkind | assignment hkind | input hkind | injectable hkind | pair hkind =>
    rw [hkind]
    rfl

/-- The names that a node writes: a walk that comes to it taints or cleans them. -/
inductive AssignsTo (ctx : Context) (n : Node) : String → Prop
  | assigned {written name : String} : n.kind = .variableAssignment → n.text = some written →
      Scope.Means (String.ofList (Text.beforeEquals written.toList)) name → AssignsTo ctx n name
  | declared {written : String} : n.kind = .variableAssignment → n.text = some written →
      AssignsTo ctx n (localName ctx (Text.beforeEquals written.toList))
  | read {argument name : String} : n.kind = .command → n.draft.name = "read" →
      argument ∈ n.draft.arguments → Scope.Means argument name → AssignsTo ctx n name

/-- The node assigns to a name before a command. -/
structure Prefixes (c : Node) (name : String) : Prop where
  kind : c.kind = .variableAssignment
  means : ∃ written, c.text = some written ∧
    Scope.Means (String.ofList (Text.beforeEquals written.toList)) name

/-- The names that a walk can taint when it comes to a node. The taint of an assignment before a
command is kept under a key of its own. -/
inductive Taints (ctx : Context) (n : Node) : String → Prop
  | written {name : String} : AssignsTo ctx n name → Taints ctx n name
  | forCommand {c : Node} {name : String} : n.kind = .command → c ∈ n.children →
      Prefixes c name → Taints ctx n (commandKey name c.row)

/-- What is tainted in the third state was tainted in one of the others, or is tainted by a node
that is walked. -/
def TaintedFrom (N : Context → Node → Prop) (s t u : State) : Prop :=
  ∀ name ∈ u.tainted, name ∈ s.tainted ∨ name ∈ t.tainted ∨ ∃ ctx n, N ctx n ∧ Taints ctx n name

/-- An invariant `I` that is kept where nodes are read and recorded. `N` says which
nodes are walked in a context, `S` which texts are run in it, and `E` which faults
may arise. What `M` tells of names has to be so where the invariant holds. -/
structure Upheld (M : String → String → Prop) (E : Fault → Prop) (I : State → Prop)
    (N : Context → Node → Prop) (S : Context → String → Prop) : Prop where
  child {ctx : Context} {n c : Node} : N ctx n → c ∈ n.children → N ctx c
  fault {ctx : Context} {n : Node} {fault : Fault} : N ctx n → n.Lacks fault → E fault
  /-- The invariant is about records, functions and scope, and about what may be tainted: names
  that are joined from two states, and names that a node taints. -/
  taint {s t u : State} : I s → I t → u.records = t.records → u.scope = t.scope →
    TaintedFrom N s t u → I u
  lookup {ctx : Context} {n : Node} {s : State} {name : String} :
    N ctx n → name ∈ n.lookups → I s → I { s with scope := s.scope.insert name }
  itself (name : String) : M name name
  meaning {s : State} {name qualified : String} :
    I s → Scope.qualified? s.scope name = some qualified → M name qualified
  record {ctx : Context} {n : Node} {s : State} {e : Entry} :
    N ctx n → Makes M ctx n e → I s → I (s.add e)
  script {ctx : Context} {n : Node} {script : String} :
    N ctx n → n.Runs script → S (scriptContext ctx n) script

/-- An invariant that visits keep too: they note functions and go into their bodies. -/
structure UpheldByVisits (M : String → String → Prop) (E : Fault → Prop) (I : State → Prop)
    (N : Context → Node → Prop) (S : Context → String → Prop) : Prop
    extends Upheld M E I N S where
  define {ctx : Context} {n : Node} {s : State} {name : String} :
    N ctx n → n.defines? = some name → I s →
      I { s with functions := s.functions.define name n.children }
  enter {ctx : Context} {n : Node} {s : State} {name : String} :
    N ctx n → n.calls? = some name → I s → I { s with functions := s.functions.enter name }
  body {ctx : Context} {n : Node} {s : State} {name : String} {f : Function} :
    N ctx n → n.calls? = some name → I s → s.functions.get? name = some f →
      ∀ m ∈ f.body, N { ctx with function := name } m

/-- A jump to nodes that may be walked, or to a text that may be run. -/
def Admitted (N : Context → Node → Prop) (S : Context → String → Prop) : Jump → Prop
  | .body parts ctx => ∀ n ∈ parts, N ctx n
  | .script script ctx => S ctx script

namespace Upheld

variable {M : String → String → Prop} {E : Fault → Prop} {I : State → Prop}
  {N : Context → Node → Prop} {S : Context → String → Prop} (upheld : Upheld M E I N S)
  {ctx : Context} {n : Node}

include upheld

/-! ## Single steps -/

theorem ensures_quiet {f : State → State} (hrecords : ∀ s, (f s).records = s.records)
    (hscope : ∀ s, (f s).scope = s.scope) (htainted : ∀ s, (f s).tainted = s.tainted) :
    Ensures E I (modify f) anything :=
  .modify fun s hs => upheld.taint hs hs (hrecords s) (hscope s) fun _ h => .inl (htainted s ▸ h)

theorem ensures_joinTaint {step : Walk Unit} (h : Ensures E I step anything) :
    Ensures E I (joinTaint step) anything := by
  intro s hs
  obtain ⟨ht, hresult⟩ := h s hs
  rw [exec_joinTaint]
  rcases hexec : step.exec s with ⟨fault | a, t⟩ <;> rw [hexec] at ht hresult
  · exact ⟨upheld.taint hs ht rfl rfl fun _ h => .inl h, hresult⟩
  · refine ⟨upheld.taint hs ht rfl rfl fun x hx => ?_, trivial⟩
    exact (NameSet.mem_union.1 hx).imp_right .inl

theorem ensures_text (hn : N ctx n) :
    Ensures E I (text n) fun written => n.text = some written := by
  unfold Walk.text
  split
  · rename_i written htext
    exact .pure htext
  · rename_i htext
    exact .throw (upheld.fault hn (.text htext))

/-- A name that is looked up means itself or a qualified name. -/
theorem ensures_resolve (hn : N ctx n) {name : String} (hname : name ∈ n.lookups) :
    Ensures E I (resolve name) fun resolved => M name resolved ∧ Scope.Means name resolved := by
  intro s hs
  unfold Walk.resolve
  simp only [exec_bind, exec_get]
  split
  · rename_i qualified hqualified
    exact ⟨hs, upheld.meaning hs hqualified, Scope.means_of_qualified? hqualified⟩
  · exact ⟨upheld.lookup hn hname hs, upheld.itself name, .inl rfl⟩

theorem ensures_taint (hn : N ctx n) {name : String} (htaints : Taints ctx n name) :
    Ensures E I (Walk.taint name) anything := by
  refine .modify fun s hs => upheld.taint hs hs rfl rfl fun x hx => ?_
  rcases NameSet.mem_insert.1 hx with hx | rfl
  · exact .inl hx
  · exact .inr (.inr ⟨ctx, n, hn, htaints⟩)

theorem ensures_assignTaint (hn : N ctx n) {name : String} (htaints : Taints ctx n name)
    (value : Value) : Ensures E I (assignTaint name value) anything := by
  refine .modify fun s hs => upheld.taint hs hs rfl rfl fun x hx => ?_
  by_cases hname : x = name
  · exact .inr (.inr ⟨ctx, n, hn, hname ▸ htaints⟩)
  · exact .inl ((NameSet.mem_assign_of_ne hname).1 hx)

/-! ## Expansions, tests and pairs -/

theorem ensures_subscript (hn : N ctx n) (hkind : n.kind.isRecorded = true) :
    Ensures E I (subscript ctx n) anything := by
  unfold Walk.subscript
  exact .bind (upheld.ensures_text hn) fun _ _ =>
    .modify fun _ hs => upheld.record hn (.subscript hkind) hs

theorem ensures_expansion (hn : N ctx n) (hkind : n.kind.isExpansion = true) :
    Ensures E I (expansion ctx n) anything := by
  unfold Walk.expansion
  exact .bind (upheld.ensures_text hn) fun written hwritten =>
    .bind (.when fun _ => upheld.ensures_subscript hn (Kind.isRecorded_of_isExpansion hkind))
      fun _ _ => .modify fun _ hs => upheld.record hn (.use hkind hwritten) hs

theorem ensures_expansionStatement (hn : N ctx n) (hkind : n.kind.isExpansion = true)
    (runs : Bool) :
    Ensures E I (expansionStatement ctx runs n) anything := by
  have runExpansion : Ensures E I (runExpansion ctx n) anything :=
    .bind (upheld.ensures_text hn) fun _ _ =>
      .modify fun _ hs => upheld.record hn (.runExpansion hkind) hs
  exact .bind (upheld.ensures_expansion hn hkind) fun _ _ => .when fun _ => runExpansion

theorem ensures_injectable (hn : N ctx n) (hkind : n.kind = .variableName) (opener : String) :
    Ensures E I (injectable ctx opener n) anything := by
  unfold Walk.injectable
  refine .bind (upheld.ensures_text hn) fun written hwritten => ?_
  have hname : written ∈ n.lookups := by simp [Node.lookups, hkind, hwritten]
  exact .bind (upheld.ensures_resolve hn hname) fun _ hmeans =>
    .modify fun _ hs => upheld.record hn (.injectable hkind hwritten hmeans.1) hs

theorem ensures_armsTest {ns : List Node} (hns : ∀ n ∈ ns, N ctx n) :
    Ensures E I (armsTest ns) anything := by
  induction ns with
  | nil => exact .pure trivial
  | cons n ns ih =>
    have rest := ih fun m hm => hns m (List.mem_cons_of_mem n hm)
    unfold Walk.armsTest
    split
    · exact .bind (upheld.ensures_text (hns n List.mem_cons_self)) fun _ _ =>
        .bind rest fun _ _ => .pure trivial
    · exact rest

theorem ensures_testOwn (hn : N ctx n) (opener : String) (armed : Bool) :
    Ensures E I (testOwn ctx opener armed n) anything := by
  unfold Walk.testOwn
  split
  · rename_i h
    rw [Bool.and_eq_true, decide_eq_true_eq] at h
    exact upheld.ensures_injectable hn h.2 opener
  · split
    · exact upheld.ensures_expansion hn ‹_›
    · exact .pure trivial

omit upheld in
theorem ensures_testAll {ns : List Node} {opener : String} {armed : Bool}
    (h : ∀ n ∈ ns, ∀ armed, Ensures E I (test ctx opener armed n) anything) :
    Ensures E I (testAll ctx opener armed ns) anything := by
  induction ns with
  | nil => exact .pure trivial
  | cons n ns ih =>
    unfold Walk.testAll
    exact .bind (h n List.mem_cons_self armed) fun _ _ =>
      ih fun m hm => h m (List.mem_cons_of_mem n hm)

theorem ensures_test (hn : N ctx n) (opener : String) (armed : Bool) :
    Ensures E I (test ctx opener armed n) anything := by
  induction n using Node.induction generalizing armed with
  | step n ih =>
    have own := upheld.ensures_testOwn hn opener armed
    obtain ⟨kind, written, row, column, endColumn, children⟩ := n
    unfold Walk.test
    exact .bind own fun _ _ => .bind (upheld.ensures_armsTest fun c hc => upheld.child hn hc)
      fun _ _ => ensures_testAll fun c hc armed => ih c hc (upheld.child hn hc) armed

omit upheld in
theorem ensures_arithmeticAll {ns : List Node} {opener : String} {armed : Bool}
    (h : ∀ n ∈ ns, ∀ armed, Ensures E I (arithmetic ctx opener armed n) anything) :
    Ensures E I (arithmeticAll ctx opener armed ns) anything := by
  induction ns with
  | nil => exact .pure trivial
  | cons n ns ih =>
    unfold Walk.arithmeticAll
    exact .bind (h n List.mem_cons_self armed) fun _ _ =>
      ih fun m hm => h m (List.mem_cons_of_mem n hm)

theorem ensures_arithmetic (hn : N ctx n) (opener : String) (armed : Bool) :
    Ensures E I (arithmetic ctx opener armed n) anything := by
  induction n using Node.induction generalizing armed with
  | step n ih =>
    have own (hkind : n.kind = .variableName) := upheld.ensures_injectable hn hkind opener
    obtain ⟨kind, written, row, column, endColumn, children⟩ := n
    unfold Walk.arithmetic
    exact .bind (.when fun h => own h.2) fun _ _ =>
      ensures_arithmeticAll fun c hc armed => ih c hc (upheld.child hn hc) armed

omit upheld in
theorem ensures_variableNamesAll {ns : List Node}
    (h : ∀ n ∈ ns, Ensures E I (variableNames n) anything) :
    Ensures E I (variableNamesAll ns) anything := by
  induction ns with
  | nil => exact .pure trivial
  | cons n ns ih =>
    unfold Walk.variableNamesAll
    exact .bind (h n List.mem_cons_self) fun _ _ =>
      .bind (ih fun m hm => h m (List.mem_cons_of_mem n hm)) fun _ _ => .pure trivial

theorem ensures_variableNames (hn : N ctx n) : Ensures E I (variableNames n) anything := by
  induction n using Node.induction with
  | step n ih =>
    have own : Ensures E I (ownName n) anything := by
      unfold Walk.ownName
      split
      · exact .bind (upheld.ensures_text hn) fun _ _ => .pure trivial
      · exact .pure trivial
    obtain ⟨kind, written, row, column, endColumn, children⟩ := n
    unfold Walk.variableNames
    exact .bind own fun _ _ =>
      .bind (ensures_variableNamesAll fun c hc => ih c hc (upheld.child hn hc)) fun _ _ =>
        .pure trivial

theorem ensures_declarePairs {ns : List Node} (hns : ∀ n ∈ ns, N ctx n) :
    Ensures E I (declarePairs ctx ns) anything := by
  induction ns with
  | nil => exact .pure trivial
  | cons n ns ih =>
    have hn := hns n List.mem_cons_self
    have declarePair (hkind : n.kind = .concatenation) :
        Ensures E I (declarePair ctx n) anything := by
      refine .bind (upheld.ensures_variableNames hn) fun names _ => ?_
      split
      · exact .modify fun _ hs => upheld.record hn (.pair hkind) hs
      · exact .pure trivial
    unfold Walk.declarePairs
    exact .bind (.when declarePair) fun _ _ =>
      ih fun m hm => hns m (List.mem_cons_of_mem n hm)

/-! ## Parameters -/

omit upheld in
theorem firstParameter?_fault {ns : List Node} {fault : Fault}
    (h : ∀ n ∈ ns, ∀ fault, parameter? n = .error fault → E fault)
    (hfault : firstParameter? ns = .error fault) : E fault := by
  induction ns with
  | nil => cases hfault
  | cons n ns ih =>
    have rest := ih fun m hm => h m (List.mem_cons_of_mem n hm)
    unfold firstParameter? at hfault
    split at hfault
    · split at hfault
      · exact rest hfault
      · cases hfault
    · exact rest hfault
    · rename_i fault' hn
      cases hfault
      exact h n List.mem_cons_self _ hn

theorem parameter?_fault (hn : N ctx n) {fault : Fault} (hfault : parameter? n = .error fault) :
    E fault := by
  induction n using Node.induction generalizing fault with
  | step n ih =>
    have hmissing := fun h => upheld.fault hn (.text h)
    obtain ⟨kind, written, row, column, endColumn, children⟩ := n
    unfold parameter? at hfault
    split at hfault
    · cases written with
      | some written => cases hfault
      | none =>
        cases hfault
        exact hmissing rfl
    · exact firstParameter?_fault (fun c hc _ h => ih c hc (upheld.child hn hc) h) hfault

theorem allowed_braced (hn : N ctx n) (hkind : n.kind = .expansion) (frame : Option Frame) :
    Allowed E (fun part => part.name? = n.reads? ∧ part.frame? = frame) (braced n frame) := by
  unfold braced
  cases hname : parameter? n with
  | error fault => exact upheld.parameter?_fault hn hname
  | ok name? =>
    cases htext : n.text with
    | none => exact upheld.fault hn (.text htext)
    | some content =>
      cases name? with
      | none => exact upheld.fault hn (.parameter hkind hname)
      | some name => exact ⟨by rw [Node.reads?, hkind, hname]; rfl, rfl⟩

/-! ## Values and commands -/

section Values

variable {jump : Jump → Walk Unit}
  (hrun : ∀ ctx script, S ctx script → Ensures E I (jump (.script script ctx)) anything)

theorem ensures_readInto (hn : N ctx n) (hkind : n.kind = .command) (hread : n.draft.name = "read")
    {arguments : List String} (harguments : ∀ a ∈ arguments, a ∈ n.draft.arguments) :
    Ensures E I (readInto ctx n arguments) anything := by
  induction arguments with
  | nil => exact .pure trivial
  | cons argument rest ih =>
    have hargument := harguments argument List.mem_cons_self
    have hname : argument ∈ n.lookups := by simp [Node.lookups, hkind, hread, hargument]
    have readVariable : Ensures E I (readVariable ctx n argument) anything :=
      .bind (upheld.ensures_resolve hn hname) fun _ hmeans =>
        .bind (.modify fun _ hs => upheld.record hn (.input hkind hread hargument hmeans.1) hs)
          fun _ _ => upheld.ensures_taint hn (.written (.read hkind hread hargument hmeans.2))
    unfold Walk.readInto
    exact .bind (.when fun _ => readVariable) fun _ _ =>
      ih fun a ha => harguments a (List.mem_cons_of_mem argument ha)

include hrun in
/-- A command that is recorded under a name without a dot is called by this name, so
what is asked of the node's draft holds of the command. -/
theorem ensures_finish (hn : N ctx n) (hkind : n.kind = .command) :
    Ensures E I (finish jump ctx n n.draft) anything := by
  have hlookup : n.draft.name ∈ n.lookups := by simp [Node.lookups, hkind]
  have runNested {name : String} (hname : Scope.Means n.draft.name name) :
      Ensures E I (runNested jump ctx
        ⟨name, n.draft.arguments, n.lineIn ctx, ctx.column + n.draft.column⟩) anything := by
    unfold Walk.runNested
    split
    · rename_i script hscript
      split
      · rename_i hshell
        have hshell : name ∈ shells := List.contains_iff_mem.1 hshell
        obtain rfl : n.draft.name = name :=
          hname.eq_of_undotted ((by decide : ∀ shell ∈ shells, Scope.depth shell = 0) name hshell)
        exact hrun _ _ (upheld.script hn ⟨hkind, hshell, hscript⟩)
      · exact .pure trivial
    · exact .pure trivial
  have record (hnamed : n.draft.name ≠ "") :
      Ensures E I (Walk.record jump ctx n n.draft) anything := by
    unfold Walk.record
    refine .bind (upheld.ensures_resolve hn hlookup) fun name hname =>
      .bind (.modify fun _ hs => upheld.record hn (.command hkind hnamed hname.1) hs) fun _ _ =>
        .bind (.when fun hread => ?_) fun _ _ => .bind (runNested hname.2) fun _ _ => .pure trivial
    have hread : n.draft.name = "read" := hread ▸ hname.2.eq_of_undotted (hread ▸ by decide)
    exact upheld.ensures_readInto hn hkind hread fun _ ha => ha
  unfold Walk.finish
  split
  · exact .pure trivial
  · exact .bind (record ‹_›) fun _ _ => .pure trivial

theorem ensures_ownPart (hn : N ctx n) {recorded : Walk (Option Command)}
    (hrecorded : n.kind = .command → Ensures E I recorded anything) :
    Ensures E I (ownPart ctx recorded n) fun parts => ∀ p ∈ parts, p.From n := by
  have variable_from {p : Part} (hname : p.name? = n.reads?)
      (hframe : p.frame? = some (frameOf n)) : ∀ q ∈ [p], q.From n := by
    intro q hq
    rw [List.mem_singleton] at hq
    exact hq ▸ .inr ⟨n, .self n, hname, hframe⟩
  have none_from : ∀ p ∈ ([] : List Part), p.From n := fun p hp => absurd hp List.not_mem_nil
  unfold Walk.ownPart
  split
  · rename_i hkind
    exact .bind (.liftExcept (upheld.allowed_braced hn hkind _)) fun _ hpart =>
      .pure (variable_from hpart.1 hpart.2)
  · rename_i hkind
    refine .bind (upheld.ensures_text hn) fun written hwritten => .pure (variable_from ?_ rfl)
    rw [Node.reads?, hkind, hwritten]
    rfl
  · rename_i hkind
    refine .bind (hrecorded hkind) fun c? _ => .pure fun p hp => ?_
    obtain ⟨c, -, rfl⟩ := List.mem_map.1 hp
    exact .inl ⟨c, rfl⟩
  · rename_i hkind
    exact .bind (upheld.ensures_subscript hn (by rw [hkind]; rfl)) fun _ _ => .pure none_from
  · exact .pure none_from

omit upheld in
theorem ensures_partsAll {ns : List Node}
    (h : ∀ n ∈ ns, Ensures E I (parts jump ctx n) fun parts => ∀ p ∈ parts, p.From n) :
    Ensures E I (partsAll jump ctx ns) fun parts => ∀ p ∈ parts, ∃ n ∈ ns, p.From n := by
  induction ns with
  | nil => exact .pure fun p hp => absurd hp List.not_mem_nil
  | cons n ns ih =>
    unfold Walk.partsAll
    refine .bind (h n List.mem_cons_self) fun first hfirst =>
      .bind (ih fun m hm => h m (List.mem_cons_of_mem n hm)) fun rest hrest => .pure fun p hp => ?_
    rcases List.mem_append.1 hp with hp | hp
    · exact ⟨n, List.mem_cons_self, hfirst p hp⟩
    · obtain ⟨m, hm, hfrom⟩ := hrest p hp
      exact ⟨m, List.mem_cons_of_mem n hm, hfrom⟩

theorem ensures_lastValue_of_parts {ns : List Node} (hns : ∀ n ∈ ns, N ctx n)
    (hempty : ns = [] → E .missingChild)
    (h : ∀ n ∈ ns, Ensures E I (parts jump ctx n) fun parts => ∀ p ∈ parts, p.From n) :
    Ensures E I (lastValue jump ctx ns) fun value => ∀ p ∈ value.parts, ∃ n ∈ ns, p.From n := by
  induction ns with
  | nil => exact .throw (hempty rfl)
  | cons n ns ih =>
    cases ns with
    | nil =>
      unfold Walk.lastValue
      exact .bind (h n List.mem_cons_self) fun parts hparts =>
        .bind (upheld.ensures_text (hns n List.mem_cons_self)) fun _ _ =>
          .pure fun p hp => ⟨n, List.mem_cons_self, hparts p hp⟩
    | cons m ms =>
      unfold Walk.lastValue
      refine (ih (fun k hk => hns k (List.mem_cons_of_mem n hk)) (fun h => by cases h)
        fun k hk => h k (List.mem_cons_of_mem n hk)).weaken fun value hvalue p hp => ?_
      obtain ⟨k, hk, hfrom⟩ := hvalue p hp
      exact ⟨k, List.mem_cons_of_mem n hk, hfrom⟩

/-- An assignment has a value, and the parts of the value stand below it. -/
theorem ensures_assigned_of_parts (hn : N ctx n) (hkind : n.kind = .variableAssignment)
    (h : ∀ c ∈ n.children, Ensures E I (parts jump ctx c) fun parts => ∀ p ∈ parts, p.From c) :
    Ensures E I (lastValue jump ctx n.children) fun value => ∀ p ∈ value.parts, p.From n := by
  refine (upheld.ensures_lastValue_of_parts (fun c hc => upheld.child hn hc) (fun hempty => ?_)
    h).weaken fun value hvalue p hp => ?_
  · exact upheld.fault hn (.child (by rw [hkind]; rfl) hempty)
  · obtain ⟨c, hc, hfrom⟩ := hvalue p hp
    exact hfrom.parent hc

theorem ensures_draftChildren_of_parts {ns : List Node} (draft : Draft) (hns : ∀ n ∈ ns, N ctx n)
    (htaint : ∀ n ∈ ns, ∀ name value, Prefixes n name →
      Ensures E I (assignTaint (commandKey name n.row) value) anything)
    (h : ∀ n ∈ ns, ∀ c ∈ n.children,
      Ensures E I (parts jump ctx c) fun parts => ∀ p ∈ parts, p.From c) :
    Ensures E I (draftChildren jump ctx draft ns) anything := by
  induction ns generalizing draft with
  | nil => exact .pure trivial
  | cons n ns ih =>
    have hn := hns n List.mem_cons_self
    have rest := fun draft => ih draft (fun m hm => hns m (List.mem_cons_of_mem n hm))
      (fun m hm => htaint m (List.mem_cons_of_mem n hm))
      fun m hm => h m (List.mem_cons_of_mem n hm)
    by_cases hassign : n.kind = .variableAssignment
    · rw [draftChildren_cons_assignment hassign]
      refine .bind (upheld.ensures_text hn) fun written hwritten => ?_
      have htarget : String.ofList (Text.beforeEquals written.toList) ∈ n.lookups := by
        simp [Node.lookups, hassign, hwritten]
      refine .bind (upheld.ensures_resolve hn htarget) fun name hmeans =>
        .bind (upheld.ensures_assigned_of_parts hn hassign (h n List.mem_cons_self))
          fun value hvalue => ?_
      have assignTaint := htaint n List.mem_cons_self name value
        ⟨hassign, written, hwritten, hmeans.2⟩
      exact .bind (.modify fun _ hs =>
        upheld.record hn (.assignment hassign hwritten hmeans.1 hvalue) hs) fun _ _ =>
          .bind assignTaint fun _ _ => rest draft
    · by_cases hname : n.kind = .commandName
      · rw [draftChildren_cons_name hname]
        have draftName : Ensures E I (draftName draft n) anything := by
          have hword : N ctx (n.children.head?.getD n) := by
            cases hhead : n.children.head? with
            | none => exact hn
            | some c => exact upheld.child hn (List.mem_of_head? hhead)
          exact .bind (upheld.ensures_text hword) fun _ _ => .pure trivial
        exact .bind draftName fun draft _ => rest draft
      · rw [draftChildren_cons_other hassign hname]
        split
        · have draftArgument : Ensures E I (draftArgument draft n) anything := by
            refine .bind (upheld.ensures_text hn) fun written _ => ?_
            split <;> exact .pure trivial
          exact .bind draftArgument fun draft _ => rest draft
        · exact rest draft

include hrun in
theorem ensures_command_of_parts (hn : N ctx n) (hkind : n.kind = .command)
    (h : ∀ c ∈ n.children, ∀ d ∈ c.children,
      Ensures E I (parts jump ctx d) fun parts => ∀ p ∈ parts, p.From d) :
    Ensures E I (command jump ctx n) anything := by
  have draft := upheld.ensures_draftChildren_of_parts {} (fun c hc => upheld.child hn hc)
    (fun c hc name value hprefixes =>
      upheld.ensures_assignTaint hn (.forCommand hkind hc hprefixes) value) h
  have drafted := draft.returning (draftChildren_returns jump ctx {} n.children)
  refine .bind drafted fun _ hdraft => ?_
  rw [hdraft.2]
  exact upheld.ensures_finish hrun hn hkind

include hrun in
/-- Reading a command reads values two levels below it, so the induction carries the
parts of the children along. -/
theorem ensures_parts_and_children (hn : N ctx n) :
    (Ensures E I (parts jump ctx n) fun parts => ∀ p ∈ parts, p.From n) ∧
      ∀ c ∈ n.children, Ensures E I (parts jump ctx c) fun parts => ∀ p ∈ parts, p.From c := by
  induction n using Node.induction with
  | step n ih =>
    have below (c : Node) (hc : c ∈ n.children) := ih c hc (upheld.child hn hc)
    refine ⟨?_, fun c hc => (below c hc).1⟩
    have command (hkind : n.kind = .command) :=
      upheld.ensures_command_of_parts hrun hn hkind fun c hc => (below c hc).2
    have own := upheld.ensures_ownPart hn command
    obtain ⟨kind, written, row, column, endColumn, children⟩ := n
    unfold Walk.parts
    refine .bind own fun own hown =>
      .bind (ensures_partsAll fun c hc => (below c hc).1) fun rest hrest => .pure fun p hp => ?_
    rcases List.mem_append.1 hp with hp | hp
    · exact hown p hp
    · obtain ⟨c, hc, hfrom⟩ := hrest p hp
      exact hfrom.parent hc

include hrun in
theorem ensures_assigned (hn : N ctx n) (hkind : n.kind = .variableAssignment) :
    Ensures E I (lastValue jump ctx n.children) fun value => ∀ p ∈ value.parts, p.From n :=
  upheld.ensures_assigned_of_parts hn hkind (upheld.ensures_parts_and_children hrun hn).2

include hrun in
theorem ensures_command (hn : N ctx n) (hkind : n.kind = .command) :
    Ensures E I (command jump ctx n) anything :=
  upheld.ensures_command_of_parts hrun hn hkind fun _ hc =>
    (upheld.ensures_parts_and_children hrun (upheld.child hn hc)).2

end Values

end Upheld

end Walk

end ShellAudit
