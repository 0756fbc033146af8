-- SUMMARY: Local names: how long they are in scope, and when their removal cannot fail.
import ShellAudit.Proofs.Logic.Visits

/-!
# Local names

A local name is in scope as long as the declaration that brings it there, and no
longer. Two things can disturb this while a declaration lasts. A text that a shell is
told to run can declare the same name and take it out of scope too early, so that its
removal fails; and a fault can end the declaration before the removal. Without the
first, the removal never fails. Without both, a walk loses no name that is not
qualified and gains none that is not looked up.
-/

namespace ShellAudit

namespace Node

/-- A declaration of local variables. -/
def IsLocal (n : Node) : Prop :=
  n.kind = .declarationCommand ∧ n.children.head?.any (·.kind = .localKeyword) = true

/-- The node tells no shell to run a text. -/
def RunsNoText (n : Node) : Prop :=
  n.kind = .command → n.draft.name ∈ Walk.shells → Walk.scriptArgument? n.draft.arguments = none

/-- The node is no local declaration during which a text is run. -/
def Settled (n : Node) : Prop := n.IsLocal → n.Every RunsNoText

/-- The node does not disturb local declarations. -/
def Orderly (n : Node) : Prop := n.Settled ∧ n.Complete

instance (n : Node) : Decidable n.IsLocal := inferInstanceAs (Decidable (_ ∧ _))

instance : DecidablePred RunsNoText := fun _ => inferInstanceAs (Decidable (_ → _ → _))

instance (n : Node) : Decidable n.Settled := inferInstanceAs (Decidable (_ → _))

instance : DecidablePred Orderly := fun _ => inferInstanceAs (Decidable (_ ∧ _))

/-- The names that the children of a declaration assign to. -/
def assignedNames (n : Node) : List (List Char) :=
  n.children.filterMap fun c =>
    if c.kind = .variableAssignment then c.text.map fun written => Text.beforeEquals written.toList
    else none

end Node

namespace Walk

/-- What holds of all nodes that a walk can come to: those that it starts with, the
bodies of functions, and the texts that shells can be told to run. -/
structure Throughout (p : Node → Prop) (parse? : String → Option Node) (s : State)
    (nodes : List Node) : Prop where
  nodes : ∀ n ∈ nodes, n.Every p
  bodies : ∀ f ∈ s.functions, ∀ n ∈ f.body, n.Every p
  texts : ∀ text root, parse? text = some root → root.Every p

theorem Throughout.imp {p q : Node → Prop} (h : ∀ n, p n → q n) {parse? : String → Option Node}
    {s : State} {nodes : List Node} (hp : Throughout p parse? s nodes) :
    Throughout q parse? s nodes where
  nodes n hn := (hp.nodes n hn).imp h
  bodies f hf n hn := (hp.bodies f hf n hn).imp h
  texts text root hroot := (hp.texts text root hroot).imp h

/-- Below nodes that run no text, no text is run. -/
theorem Upheld.withoutTexts {M : String → String → Prop} {E : Fault → Prop} {I : State → Prop}
    {N : Context → Node → Prop} {S : Context → String → Prop} (upheld : Upheld M E I N S) :
    Upheld M E I (fun ctx n => N ctx n ∧ n.Every Node.RunsNoText) fun _ _ => False where
  child := by
    rintro ctx n c ⟨hn, hruns⟩ hc
    exact ⟨upheld.child hn hc, (Node.every_iff.1 hruns).2 c hc⟩
  fault := by
    rintro ctx n fault ⟨hn, -⟩ hlacks
    exact upheld.fault hn hlacks
  taint hs ht hrecords hscope htainted := by
    refine upheld.taint hs ht hrecords hscope fun name hname => ?_
    rcases htainted name hname with h | h | ⟨ctx, n, ⟨hn, -⟩, htaints⟩
    · exact .inl h
    · exact .inr (.inl h)
    · exact .inr (.inr ⟨ctx, n, hn, htaints⟩)
  itself := upheld.itself
  meaning := upheld.meaning
  lookup := by
    rintro ctx n s name ⟨hn, -⟩ hname hs
    exact upheld.lookup hn hname hs
  record := by
    rintro ctx n s e ⟨hn, -⟩ hmakes hs
    exact upheld.record hn hmakes hs
  script := by
    rintro ctx n script ⟨-, hnone⟩ ⟨hkind, hshell, hscript⟩
    rw [(Node.every_iff.1 hnone).1 hkind hshell] at hscript
    cases hscript

/-! ## The scope that a walk leaves behind -/

section

variable {p : Node → Prop} {P : NameSet → Prop} {E : Fault → Prop}

/-- The functions have bodies of nodes with `p`, and the scope satisfies `P`. -/
def Scoped (p : Node → Prop) (P : NameSet → Prop) (s : State) : Prop :=
  FunctionTable.Bodies p s.functions ∧ P s.scope

theorem scoped_upheld (hfault : ∀ n fault, p n → n.Lacks fault → E fault)
    (hlookup : ∀ n name scope, p n → name ∈ n.lookups → P scope → P (scope.insert name)) :
    UpheldByVisits Scope.Means E (Scoped p P) (fun _ n => n.Every p) fun _ _ => True where
  child hn hc := (Node.every_iff.1 hn).2 _ hc
  fault hn := hfault _ _ (Node.every_iff.1 hn).1
  taint := by
    rintro s t u - ⟨hbodies, ht⟩ hrecords hscope -
    exact ⟨State.functions_eq hrecords ▸ hbodies, hscope ▸ ht⟩
  lookup hn hname hs := ⟨hs.1, hlookup _ _ _ (Node.every_iff.1 hn).1 hname hs.2⟩
  itself _ := .inl rfl
  meaning _ hqualified := Scope.means_of_qualified? hqualified
  record := by
    rintro ctx n s e - - ⟨hbodies, hs⟩
    exact ⟨s.functions_add e ▸ hbodies, hs⟩
  script _ _ := trivial
  define hn _ hs := ⟨hs.1.define hn _, hs.2⟩
  enter _ _ hs := ⟨hs.1.enter _, hs.2⟩
  body := by
    rintro ctx n s name f - - ⟨hbodies, -⟩ hf
    exact hbodies f (List.mem_of_find?_eq_some hf)

variable (hsettled : ∀ n, p n → n.Settled)
  (hfault : ∀ n fault, p n → n.Lacks fault → E fault ∧ ∀ scope, P scope)
  (hlookup : ∀ n name scope, p n → name ∈ n.lookups → P scope → P (scope.insert name))
  (herase : ∀ name scope, 0 < Scope.depth name → P scope → P (scope.erase name))

include hsettled hfault hlookup herase

/-- No text is run during a local declaration, so its own names are all that it
takes out of scope. Where it can end early, nothing is asked of the scope. -/
theorem ensures_settled {jump : Jump → Walk Unit} {ctx : Context} {n : Node} (hn : n.Every p)
    (hlocal : n.IsLocal) : Ensures E (Scoped p P) (localDeclaration jump ctx n) anything := by
  have upheld :
      UpheldByVisits _ (fun fault => ∃ m, p m ∧ m.Lacks fault) (Scoped p P) _ _ :=
    scoped_upheld (fun m fault hm hlacks => ⟨m, hm, hlacks⟩) hlookup
  refine upheld.withoutTexts.ensures_localDeclaration
    (fun s name hname hs => ⟨hs.1, herase name _ hname hs.2⟩) (fun _ _ h => h)
    (fun _ _ h => h) ?_ ⟨hn, hsettled n (Node.every_iff.1 hn).1 hlocal⟩ hlocal.1
  rintro fault ⟨m, hm, hlacks⟩
  obtain ⟨hE, hP⟩ := hfault m fault hm hlacks
  exact ⟨hE, fun locals s hs => ⟨hs.2.1, hP s.scope⟩⟩

theorem ensures_scoped {parse? : String → Option Node} {nodes : List Node} (hspent : E .exhausted)
    (htexts : ∀ text root, parse? text = some root → root.Every p)
    (hnodes : ∀ n ∈ nodes, n.Every p) (budget : Nat) (ctx : Context) (parent : Kind)
    (first : Bool) :
    Ensures E (Scoped p P) (visitAll (follow parse? budget) ctx parent first nodes) anything := by
  have upheld := scoped_upheld (fun n fault hn hlacks => (hfault n fault hn hlacks).1) hlookup
  have hlocal {jump : Jump → Walk Unit} {ctx : Context} {n : Node} (hn : n.Every p)
      (hkind : n.kind = .declarationCommand)
      (hhead : n.children.head?.any (·.kind = .localKeyword) = true) :
      Ensures E (Scoped p P) (localDeclaration jump ctx n) anything :=
    ensures_settled hsettled hfault hlookup herase hn ⟨hkind, hhead⟩
  have jumps := upheld.ensures_follow hspent (fun _ => hlocal) (fun _ hroot => htexts _ _ hroot)
    (fun _ _ hs => hs) (fun _ _ hs => hs) budget
  exact UpheldByVisits.ensures_visitAll_of_visit fun n hn runs =>
    upheld.ensures_visit jumps (hnodes n hn) hlocal runs

end

/-! ## The end of a declaration -/

section

variable {jump : Jump → Walk Unit} {ctx : Context} {n : Node} {s t : State}

theorem declareLocals_returns (jump : Jump → Walk Unit) (ctx : Context) (declaration : Node)
    (locals : NameSet) (nodes : List Node) :
    Returns (declareLocals jump ctx declaration locals nodes) fun declared =>
      locals ⊆ declared ∧ ∀ c ∈ nodes, c.kind = .variableAssignment → ∀ written,
        c.text = some written → localName ctx (Text.beforeEquals written.toList) ∈ declared := by
  induction nodes generalizing locals with
  | nil => exact .pure ⟨NameSet.Subset.refl locals, fun c hc => absurd hc List.not_mem_nil⟩
  | cons m ms ih =>
    have declareLocal (name : String) :
        Returns (declareLocal locals name) (· = locals.insert name) :=
      .bind (.any _) fun _ _ => .pure rfl
    -- What is declared later is added to what is declared here.
    have rest (name : String) {declared : NameSet} (h : locals.insert name ⊆ declared) :
        locals ⊆ declared ∧ name ∈ declared :=
      ⟨fun x hx => h x (NameSet.mem_insert.2 (.inl hx)), h name (NameSet.mem_insert.2 (.inr rfl))⟩
    unfold declareLocals
    split
    · rename_i hassign
      refine .bind (.text m) fun written hwritten => .bind (.any _) fun _ _ => .bind (.any _)
        fun _ _ => .bind (declareLocal _) fun inserted hinserted => ?_
      subst hinserted
      intro s declared t hexec
      obtain ⟨hsubset, hlater⟩ := ih _ s declared t hexec
      obtain ⟨hlocals, hname⟩ := rest _ hsubset
      refine ⟨hlocals, fun c hc hkind w hw => ?_⟩
      rcases List.mem_cons.1 hc with rfl | hc
      · rw [hwritten] at hw
        cases hw
        exact hname
      · exact hlater c hc hkind w hw
    · rename_i hname
      refine .bind (.any _) fun initial _ => .bind (declareLocal _) fun inserted hinserted => ?_
      subst hinserted
      intro s declared t hexec
      obtain ⟨hsubset, hlater⟩ := ih _ s declared t hexec
      refine ⟨(rest _ hsubset).1, fun c hc hkind => ?_⟩
      rcases List.mem_cons.1 hc with rfl | hc
      · rw [hname] at hkind
        cases hkind
      · exact hlater c hc hkind
    · rename_i hassign _
      intro s declared t hexec
      obtain ⟨hsubset, hlater⟩ := ih _ s declared t hexec
      refine ⟨hsubset, fun c hc hkind => ?_⟩
      rcases List.mem_cons.1 hc with rfl | hc
      · exact absurd hkind hassign
      · exact hlater c hc hkind

theorem scope_of_retractAll {names : List String} (h : (retractAll names).exec s = (.ok (), t)) :
    ∀ name ∈ t.scope, name ∈ s.scope ∧ name ∉ names := by
  induction names generalizing s with
  | nil =>
    cases h
    exact fun name hname => ⟨hname, List.not_mem_nil⟩
  | cons x xs ih =>
    unfold retractAll retract at h
    by_cases hx : x ∈ s.scope
    · simp only [exec_bind, exec_get, if_pos hx, exec_modify] at h
      intro name hname
      obtain ⟨hscope, hxs⟩ := ih h name hname
      obtain ⟨hscope, hne⟩ := NameSet.mem_erase.1 hscope
      exact ⟨hscope, fun hmem => (List.mem_cons.1 hmem).elim hne hxs⟩
    · simp only [exec_bind, exec_get, if_neg hx, exec_throw] at h
      cases h

theorem exec_bind_ok {α β : Type} {walk : Walk α} {next : α → Walk β} {b : β}
    (h : (walk >>= next).exec s = (.ok b, t)) :
    ∃ a u, walk.exec s = (.ok a, u) ∧ (next a).exec u = (.ok b, t) := by
  rw [exec_bind] at h
  rcases hexec : walk.exec s with ⟨fault | a, u⟩ <;> rw [hexec] at h
  · cases h
  · exact ⟨a, u, rfl, h⟩

/-- Once a declaration has ended, its names are out of scope. -/
theorem not_mem_scope_of_localDeclaration (h : (localDeclaration jump ctx n).exec s = (.ok (), t))
    {x : List Char} (hx : x ∈ n.assignedNames) : localName ctx x ∉ t.scope := by
  obtain ⟨locals, u, hdeclared, hretracted⟩ := exec_bind_ok h
  obtain ⟨c, hc, hname⟩ := List.mem_filterMap.1 hx
  split at hname
  · rename_i hkind
    obtain ⟨written, hwritten, rfl⟩ := Option.map_eq_some_iff.1 hname
    have hmem := (declareLocals_returns jump ctx n ∅ n.children s locals u hdeclared).2 c hc hkind
      written hwritten
    exact fun hscope => (scope_of_retractAll hretracted _ hscope).2 hmem
  · cases hname

theorem visit_local (hlocal : n.IsLocal) (runs : Bool) :
    visit jump ctx runs n = (do
      countVisit
      declarePairs ctx n.children
      localDeclaration jump ctx n) := by
  obtain ⟨kind, written, row, column, endColumn, children⟩ := n
  obtain ⟨hkind, hhead⟩ := hlocal
  obtain rfl : kind = .declarationCommand := hkind
  cases children with
  | nil => cases hhead
  | cons c cs =>
    have hc : c.kind = .localKeyword := by simpa using hhead
    simp only [visit, isLocal, hc, decide_true, pure_bind, if_true]

theorem resolve_ne_localName {x : List Char} (hx : localName ctx x ∉ s.scope) :
    (resolve (String.ofList x)).exec s ≠ (.ok (localName ctx x), t) := by
  intro h
  unfold resolve at h
  simp only [exec_bind, exec_get] at h
  split at h
  · rename_i qualified hqualified
    cases h
    exact hx (Scope.mem_of_qualified? hqualified).1
  · simp only [exec_bind, exec_modify, exec_pure, Prod.mk.injEq, Except.ok.injEq] at h
    have := congrArg (fun name : String => name.toList.length) h.1
    simp [localName] at this
    omega

end

/-! ## Bodies of functions -/

section

variable {parse? : String → Option Node} {ctx : Context} {s : State} {nodes : List Node}
  (budget : Nat) (parent : Kind) (first : Bool)

/-- Where no text is run during a local declaration, the removal of local names does
not fail. -/
theorem visitAll_ne_unscopedLocal (hsettled : Throughout Node.Settled parse? s nodes)
    (name : String) :
    ((visitAll (follow parse? budget) ctx parent first nodes).exec s).1 ≠
      .error (.unscopedLocal name) := by
  have hfault (n : Node) (fault : Fault) (_ : n.Settled) (hlacks : n.Lacks fault) :
      fault ≠ .unscopedLocal name ∧ ∀ _ : NameSet, True := by
    refine ⟨?_, fun _ => trivial⟩
    rintro rfl
    cases hlacks
  have walk := ensures_scoped (fun _ h => h) hfault (fun _ _ _ _ _ h => h) (fun _ _ _ h => h)
    (fun h => by cases h) hsettled.texts hsettled.nodes budget ctx parent first
  have hresult := (walk s ⟨hsettled.bodies, trivial⟩).2
  intro hunscoped
  rw [hunscoped] at hresult
  exact hresult rfl

/-- Where nothing disturbs local declarations, a walk keeps what lookups and the loss
of qualified names keep. -/
theorem visitAll_scoped {p : Node → Prop} {P : NameSet → Prop}
    (hp : ∀ n, p n → n.Orderly)
    (hlookup : ∀ n name scope, p n → name ∈ n.lookups → P scope → P (scope.insert name))
    (herase : ∀ name scope, 0 < Scope.depth name → P scope → P (scope.erase name))
    (hall : Throughout p parse? s nodes) (hs : P s.scope) :
    P ((visitAll (follow parse? budget) ctx parent first nodes).exec s).2.scope := by
  have hfault (n : Node) (fault : Fault) (hn : p n) (hlacks : n.Lacks fault) :
      fault = .exhausted ∧ ∀ scope, P scope := absurd hlacks ((hp n hn).2 fault)
  have walk := ensures_scoped (fun n hn => (hp n hn).1) hfault hlookup herase rfl hall.texts
    hall.nodes budget ctx parent first
  exact (walk s ⟨hall.bodies, hs⟩).1.2

/-- An orderly local declaration returns, and its names are out of scope then. -/
theorem exec_visit_local {p : Node → Prop} (hp : ∀ n, p n → n.Orderly) {n : Node} (hn : n.Every p)
    (hlocal : n.IsLocal) (hbodies : ∀ f ∈ s.functions, ∀ m ∈ f.body, m.Every p)
    (jump : Jump → Walk Unit) (ctx : Context) (runs : Bool) :
    ∃ t, (visit jump ctx runs n).exec s = (.ok (), t) ∧
      (∀ f ∈ t.functions, ∀ m ∈ f.body, m.Every p) ∧
      ∀ x ∈ n.assignedNames, localName ctx x ∉ t.scope := by
  have hfault (n : Node) (fault : Fault) (hn : p n) (hlacks : n.Lacks fault) :
      False ∧ ∀ _ : NameSet, True := absurd hlacks ((hp n hn).2 fault)
  have hlookup (n : Node) (name : String) (scope : NameSet) (_ : p n) (_ : name ∈ n.lookups)
      (h : True) : True := h
  have upheld := scoped_upheld (fun n fault hn hlacks => (hfault n fault hn hlacks).1) hlookup
  have visit :
      Ensures (fun _ => False) (Scoped p fun _ => True) (visit jump ctx runs n) anything := by
    rw [visit_local hlocal]
    exact .bind (upheld.ensures_quiet (fun _ => rfl) (fun _ => rfl) fun _ => rfl) fun _ _ =>
      .bind (upheld.ensures_declarePairs (Node.every_iff.1 hn).2) fun _ _ =>
        ensures_settled (fun n hn => (hp n hn).1) hfault hlookup (fun _ _ _ h => h) hn hlocal
  obtain ⟨ht, hresult⟩ := visit s ⟨hbodies, trivial⟩
  rcases hexec : (Walk.visit jump ctx runs n).exec s with ⟨fault | _, t⟩ <;>
    rw [hexec] at ht hresult
  · exact absurd hresult id
  · refine ⟨t, rfl, ht.1, fun x hx => ?_⟩
    rw [visit_local hlocal] at hexec
    obtain ⟨_, u, -, hexec⟩ := exec_bind_ok hexec
    obtain ⟨_, v, -, hexec⟩ := exec_bind_ok hexec
    exact not_mem_scope_of_localDeclaration hexec hx

/-- After a local declaration and whatever follows it, none of its names is in scope,
unless something looks it up in full. -/
theorem not_mem_scope_after_local {declaration : Node} {x : List Char}
    (hlocal : declaration.IsLocal)
    (hx : x ∈ declaration.assignedNames)
    (hall : Throughout (fun n => n.Orderly ∧ localName ctx x ∉ n.lookups) parse? s
      (declaration :: nodes)) :
    localName ctx x ∉
      ((visitAll (follow parse? budget) ctx parent first
        (declaration :: nodes)).exec s).2.scope := by
  obtain ⟨t, hexec, hbodies, hscope⟩ := exec_visit_local (fun _ h => h.1)
    (hall.nodes declaration List.mem_cons_self) hlocal hall.bodies (follow parse? budget) ctx
    (parent.runsChild first)
  unfold visitAll
  rw [exec_bind, hexec]
  refine visitAll_scoped (P := fun scope => localName ctx x ∉ scope) budget parent false
    (fun _ h => h.1) ?_ ?_
    ⟨fun n hn => hall.nodes n (List.mem_cons_of_mem declaration hn), hbodies, hall.texts⟩
    (hscope x hx)
  · intro n name scope hn hname hnot hmem
    rcases NameSet.mem_insert.1 hmem with hmem | rfl
    · exact hnot hmem
    · exact hn.2 hname
  · exact fun name scope _ hnot hmem => hnot (NameSet.mem_erase.1 hmem).1

end

/-- Local names are in scope as long as their declaration. Their removal does not fail
where no text is run during a declaration. If nothing is lacking either, a walk of the
body of a function leaves every name in scope that has no qualifier, and none that was
not there and is not looked up; and once `x` has been declared, it is not the local name
that `x` means, whatever is walked in between. -/
theorem local_names_end_with_declaration (parse? : String → Option Node) (budget : Nat)
    (ctx : Context) (parent : Kind) (first : Bool) (s : State) (nodes : List Node) :
    let after := (visitAll (follow parse? budget) ctx parent first nodes).exec s
    (Throughout Node.Settled parse? s nodes →
      ∀ name, after.1 ≠ .error (.unscopedLocal name)) ∧
    (Throughout Node.Orderly parse? s nodes →
      ∀ name ∈ s.scope, Scope.depth name = 0 → name ∈ after.2.scope) ∧
    (∀ name, Throughout (fun n => n.Orderly ∧ name ∉ n.lookups) parse? s nodes →
      name ∈ after.2.scope → name ∈ s.scope) ∧
    ∀ declaration later x, nodes = declaration :: later → declaration.IsLocal →
      x ∈ declaration.assignedNames →
      Throughout (fun n => n.Orderly ∧ localName ctx x ∉ n.lookups) parse? s nodes →
        ∀ t, (resolve (String.ofList x)).exec after.2 ≠ (.ok (localName ctx x), t) := by
  intro after
  refine ⟨visitAll_ne_unscopedLocal budget parent first, fun hall name hname hdepth => ?_,
    fun name hall hname => ?_, ?_⟩
  · refine visitAll_scoped (P := fun scope => name ∈ scope) budget parent first (fun _ h => h)
      (fun n other scope _ _ h => NameSet.mem_insert.2 (.inl h)) (fun other scope hother h => ?_)
      hall hname
    refine NameSet.mem_erase.2 ⟨h, ?_⟩
    rintro rfl
    exact absurd hdepth (Nat.ne_of_gt hother)
  · refine visitAll_scoped (P := fun scope => name ∈ scope → name ∈ s.scope) budget parent first
      (fun _ h => h.1) ?_ (fun other scope _ h hmem => h (NameSet.mem_erase.1 hmem).1) hall id hname
    rintro n other scope ⟨-, hnot⟩ hother h hmem
    rcases NameSet.mem_insert.1 hmem with hmem | rfl
    · exact h hmem
    · exact absurd hother hnot
  · rintro declaration later x rfl hlocal hx hall t
    exact resolve_ne_localName (not_mem_scope_after_local budget parent first hlocal hx hall)

/-- The body of the function in `f() { local x=1; x=$1; }`. -/
def assigningBody : List Node :=
  [⟨.declarationCommand, some "local x=1", 0, 6, 15,
      [⟨.localKeyword, some "local", 0, 6, 11, []⟩,
        ⟨.variableAssignment, some "x=1", 0, 12, 15,
          [⟨.variableName, some "x", 0, 12, 13, []⟩, ⟨.number, some "1", 0, 14, 15, []⟩]⟩]⟩,
    ⟨.variableAssignment, some "x=$1", 0, 17, 21,
      [⟨.variableName, some "x", 0, 17, 18, []⟩,
        ⟨.simpleExpansion, some "$1", 0, 19, 21, [⟨.variableName, some "1", 0, 20, 21, []⟩]⟩]⟩]

/-- The variable `x` of the script is in scope before and after the body, and the local
one is not. -/
theorem local_names_end_with_declaration_assigning :
    let s : State := { scope := .ofList ["x"] }
    let after := (visitAll (follow (fun _ => none) 1) { function := "f" } .compoundStatement true
      assigningBody).exec s
    Throughout (fun n => n.Orderly ∧ "f.x" ∉ n.lookups) (fun _ => none) s assigningBody ∧
      (∀ name, after.1 ≠ .error (.unscopedLocal name)) ∧ "x" ∈ after.2.scope ∧
      "f.x" ∉ after.2.scope ∧ ∀ t, (resolve "x").exec after.2 ≠ (.ok "f.x", t) := by
  intro s after
  have hall : Throughout (fun n => n.Orderly ∧ "f.x" ∉ n.lookups) (fun _ => none) s assigningBody :=
    { nodes := by decide +kernel
      bodies := fun f hf => absurd hf List.not_mem_nil
      texts := fun text root h => by cases h }
  obtain ⟨hremoval, hkept, hgained, hmeant⟩ := local_names_end_with_declaration (fun _ => none) 1
    { function := "f" } .compoundStatement true s assigningBody
  refine ⟨hall, hremoval (hall.imp fun n h => h.1.1), ?_, fun h => ?_, ?_⟩
  · exact hkept (hall.imp fun n h => h.1) "x" (by decide) (by decide)
  · exact absurd (hgained "f.x" hall h) (by decide)
  · exact hmeant _ _ ['x'] rfl (by decide +kernel) (by decide +kernel) hall

/-- The script `f() { local x=1; x=$1; }; f`. -/
def assigningLocal : Grammar where
  entries :=
    [("f() \x7b local x=1; x=$1; \x7d; f", some ⟨.program, 0, 27,
        [⟨.functionDefinition, 0, 24,
          [⟨.word, 0, 1, []⟩, ⟨.other "(", 1, 2, []⟩, ⟨.other ")", 2, 3, []⟩,
            ⟨.compoundStatement, 4, 24,
              [⟨.declarationCommand, 6, 15,
                [⟨.localKeyword, 6, 11, []⟩,
                  ⟨.variableAssignment, 12, 15,
                    [⟨.variableName, 12, 13, []⟩, ⟨.number, 14, 15, []⟩]⟩]⟩,
                ⟨.variableAssignment, 17, 21,
                  [⟨.variableName, 17, 18, []⟩,
                    ⟨.simpleExpansion, 19, 21, [⟨.variableName, 20, 21, []⟩]⟩]⟩]⟩]⟩,
          ⟨.command, 26, 27, [⟨.commandName, 26, 27, [⟨.word, 26, 27, []⟩]⟩]⟩]⟩)]

/-- The script `f() { local x=1 y=$(bash -c 'local x=2'); }; f`. -/
def redeclaringLocal : Grammar where
  entries :=
    [("f() \x7b local x=1 y=$(bash -c 'local x=2'); \x7d; f", some ⟨.program, 0, 46,
        [⟨.functionDefinition, 0, 43,
          [⟨.word, 0, 1, []⟩, ⟨.other "(", 1, 2, []⟩, ⟨.other ")", 2, 3, []⟩,
            ⟨.compoundStatement, 4, 43,
              [⟨.declarationCommand, 6, 40,
                [⟨.localKeyword, 6, 11, []⟩,
                  ⟨.variableAssignment, 12, 15,
                    [⟨.variableName, 12, 13, []⟩, ⟨.number, 14, 15, []⟩]⟩,
                  ⟨.variableAssignment, 16, 40,
                    [⟨.variableName, 16, 17, []⟩,
                      ⟨.commandSubstitution, 18, 40,
                        [⟨.command, 20, 39,
                          [⟨.commandName, 20, 24, [⟨.word, 20, 24, []⟩]⟩, ⟨.word, 25, 27, []⟩,
                            ⟨.rawString, 28, 39, []⟩]⟩]⟩]⟩]⟩]⟩]⟩,
          ⟨.command, 45, 46, [⟨.commandName, 45, 46, [⟨.word, 45, 46, []⟩]⟩]⟩]⟩),
      ("local x=2", some ⟨.program, 0, 9,
        [⟨.declarationCommand, 0, 9,
          [⟨.localKeyword, 0, 5, []⟩,
            ⟨.variableAssignment, 6, 9,
              [⟨.variableName, 6, 7, []⟩, ⟨.number, 8, 9, []⟩]⟩]⟩]⟩)]

/-- User input that is assigned to a local variable taints the variable of the script
that has the same name, and a local variable that is declared once more while its
declaration lasts stops the walk. -/
theorem local_names_not_kept_to_end_of_body :
    ((script assigningLocal "f() \x7b local x=1; x=$1; \x7d; f").exec {}).2.tainted.names = ["x"] ∧
      ((script redeclaringLocal
        "f() \x7b local x=1 y=$(bash -c 'local x=2'); \x7d; f").exec {}).1 =
          .error (.unscopedLocal "f.x") := by
  decide +kernel

end Walk

end ShellAudit
