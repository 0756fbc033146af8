-- SUMMARY: The logic of walks for local declarations, for visits, and for jumps of any depth.
import ShellAudit.Proofs.Logic

/-!
# The logic of visits

A visit notes functions and goes into their bodies, and a local declaration changes
the scope while it lasts. An invariant that the single steps keep is kept by all of
this, whatever is called and however deep texts are nested in texts.
-/

namespace ShellAudit

namespace NameSet

/-- The set without the names of a list. -/
def eraseAll (s : NameSet) (ns : List String) : NameSet :=
  ⟨s.names.filter (· ∉ ns), s.nodup.filter _⟩

theorem ext_names {s t : NameSet} (h : s.names = t.names) : s = t := by
  cases s
  cases t
  cases h
  rfl

theorem eraseAll_nil (s : NameSet) : s.eraseAll [] = s := by
  apply ext_names
  simp [eraseAll]

theorem eraseAll_cons (s : NameSet) (n : String) (ns : List String) :
    s.eraseAll (n :: ns) = (s.erase n).eraseAll ns := by
  apply ext_names
  simp [eraseAll, erase, List.filter_filter, Bool.and_comm]

theorem eraseAll_append_singleton (s : NameSet) (n : String) (ns : List String) :
    s.eraseAll (ns ++ [n]) = (s.eraseAll ns).erase n := by
  apply ext_names
  simp [eraseAll, erase, List.filter_filter, Bool.and_comm]

theorem eraseAll_insert_of_mem {s : NameSet} {n : String} {ns : List String} (h : n ∈ ns) :
    (s.insert n).eraseAll ns = s.eraseAll ns := by
  apply ext_names
  unfold insert
  split
  · rfl
  · simp [eraseAll, h]

theorem eraseAll_insert_of_not_mem {s : NameSet} {n : String} {ns : List String} (h : n ∉ ns) :
    (s.insert n).eraseAll ns = (s.eraseAll ns).insert n := by
  apply ext_names
  by_cases hn : n ∈ s.names <;> simp [insert, eraseAll, h, hn]

end NameSet

namespace FunctionTable

theorem mem_define {table : FunctionTable} {name : String} {body : List Node} {f : Function}
    (h : f ∈ table.define name body) : f ∈ table ∨ f = ⟨name, body, false⟩ := by
  unfold define at h
  split at h
  · obtain ⟨g, hg, rfl⟩ := List.mem_map.1 h
    split
    · exact .inr rfl
    · exact .inl hg
  · exact (List.mem_append.1 h).imp_right List.mem_singleton.1

theorem mem_enter {table : FunctionTable} {name : String} {f : Function}
    (h : f ∈ table.enter name) : ∃ g ∈ table, g.name = f.name ∧ g.body = f.body := by
  obtain ⟨g, hg, rfl⟩ := List.mem_map.1 h
  refine ⟨g, hg, ?_⟩
  split <;> exact ⟨rfl, rfl⟩

/-- The bodies of the functions are made of nodes with `p`. -/
def Bodies (p : Node → Prop) (table : FunctionTable) : Prop :=
  ∀ f ∈ table, ∀ n ∈ f.body, n.Every p

theorem Bodies.define {p : Node → Prop} {table : FunctionTable} (h : Bodies p table) {n : Node}
    (hn : n.Every p) (name : String) : Bodies p (table.define name n.children) := by
  intro f hf
  rcases mem_define hf with hf | rfl
  · exact h f hf
  · exact fun m hm => (Node.every_iff.1 hn).2 m hm

theorem Bodies.enter {p : Node → Prop} {table : FunctionTable} (h : Bodies p table)
    (name : String) : Bodies p (table.enter name) := by
  intro f hf
  obtain ⟨g, hg, -, hbody⟩ := mem_enter hf
  exact hbody ▸ h g hg

end FunctionTable

namespace Walk

/-! ## Local declarations -/

/-- While a declaration lasts, its local names are in scope, and without them the
scope is as the invariant says. -/
def WhileDeclared (I : State → Prop) (locals : List String) (s : State) : Prop :=
  (∀ name ∈ locals, name ∈ s.scope) ∧ I { s with scope := s.scope.eraseAll locals }

theorem Upheld.whileDeclared {M : String → String → Prop} {E : Fault → Prop} {I : State → Prop}
    {N : Context → Node → Prop} {S : Context → String → Prop} (upheld : Upheld M E I N S)
    (hmeans : ∀ written name, Scope.Means written name → M written name) (locals : List String) :
    Upheld M E (WhileDeclared I locals) N S where
  child := upheld.child
  fault := upheld.fault
  script := upheld.script
  itself := upheld.itself
  meaning _ hqualified := hmeans _ _ (Scope.means_of_qualified? hqualified)
  taint := by
    rintro s t u ⟨-, hs⟩ ⟨hlocals, ht⟩ hrecords hscope htainted
    exact ⟨hscope ▸ hlocals, upheld.taint hs ht hrecords (by simp only [hscope]) htainted⟩
  lookup := by
    rintro ctx n s name hn hname ⟨hlocals, hs⟩
    refine ⟨fun x hx => NameSet.mem_insert.2 (.inl (hlocals x hx)), ?_⟩
    by_cases h : name ∈ locals
    · rw [NameSet.eraseAll_insert_of_mem h]
      exact hs
    · rw [NameSet.eraseAll_insert_of_not_mem h]
      exact upheld.lookup hn hname hs
  record := by
    rintro ctx n s e hn hmakes ⟨hlocals, hs⟩
    exact ⟨hlocals, upheld.record hn hmakes hs⟩

theorem depth_localName (ctx : Context) (name : List Char) :
    0 < Scope.depth (localName ctx name) := by
  simp only [localName, Scope.depth, String.toList_append, List.count_append]
  exact Nat.add_pos_left (Nat.add_pos_right _ (by decide)) _

/-- What has to be true when the names of a declaration have been declared. -/
def Declared (E : Fault → Prop) (I : State → Prop) : Except Fault NameSet × State → Prop
  | (.ok locals, t) => WhileDeclared I locals.names t
  | (.error fault, t) => E fault ∧ ∃ locals, WhileDeclared I locals t

section Locals

variable {M : String → String → Prop} {E : Fault → Prop} {I : State → Prop}
  {N : Context → Node → Prop} {S : Context → String → Prop} {ctx : Context} {n : Node}
  {jump : Jump → Walk Unit}

theorem Ensures.declared_bind {α : Type} {walk : Walk α} {next : α → Walk NameSet} {P : α → Prop}
    {locals : List String} {s : State} (h : Ensures E (WhileDeclared I locals) walk P)
    (hs : WhileDeclared I locals s)
    (hnext : ∀ a t, P a → WhileDeclared I locals t → Declared E I ((next a).exec t)) :
    Declared E I ((walk >>= next).exec s) := by
  obtain ⟨ht, hresult⟩ := h s hs
  rw [exec_bind]
  rcases hexec : walk.exec s with ⟨fault | a, t⟩ <;> rw [hexec] at ht hresult
  · exact ⟨hresult, locals, ht⟩
  · exact hnext a t hresult ht

theorem Upheld.ensures_firstCharacter (upheld : Upheld M E I N S) (hn : N ctx n)
    (hkind : n.kind = .declarationCommand) : Ensures E I (firstCharacter n) anything := by
  refine .bind (upheld.ensures_text hn) fun written hwritten => ?_
  split
  · rename_i hempty
    refine .throw (upheld.fault hn (.declaration hkind ?_))
    rw [hwritten, ← String.ofList_toList (s := written), hempty]
  · exact .pure trivial

/-- A declaration keeps an invariant that is not about the scope, whatever texts it runs. -/
theorem Upheld.ensures_localDeclaration_of_unscoped (upheld : Upheld M E I N S)
    (hscope : ∀ s scope, I s → I { s with scope := scope })
    (hfault : ∀ name, E (.unscopedLocal name))
    (hrun : ∀ ctx script, S ctx script → Ensures E I (jump (.script script ctx)) anything)
    (hn : N ctx n) (hkind : n.kind = .declarationCommand) :
    Ensures E I (localDeclaration jump ctx n) anything := by
  have declareLocal (locals : NameSet) (name : String) :
      Ensures E I (declareLocal locals name) anything :=
    .bind (.modify fun s hs => hscope s _ hs) fun _ _ => .pure trivial
  have declareLocals {ns : List Node} (hns : ∀ m ∈ ns, N ctx m) (locals : NameSet) :
      Ensures E I (declareLocals jump ctx n locals ns) anything := by
    induction ns generalizing locals with
    | nil => exact .pure trivial
    | cons m ms ih =>
      have hm := hns m List.mem_cons_self
      have rest := ih fun k hk => hns k (List.mem_cons_of_mem m hk)
      unfold Walk.declareLocals
      split
      · rename_i hassign
        exact .bind (upheld.ensures_text hm) fun _ hwritten =>
          .bind (upheld.ensures_assigned hrun hm hassign) fun value _ =>
            .bind (upheld.ensures_assignTaint hm (.written (.declared hassign hwritten)) value)
              fun _ _ => .bind (declareLocal locals _) fun locals _ => rest locals
      · exact .bind (upheld.ensures_firstCharacter hn hkind) fun _ _ =>
          .bind (declareLocal locals _) fun locals _ => rest locals
      · exact rest locals
  have retract (name : String) : Ensures E I (retract name) anything := by
    intro s hs
    simp only [Walk.retract, exec_bind, exec_get]
    split
    · exact ⟨hscope s _ hs, trivial⟩
    · exact ⟨hs, hfault name⟩
  have retractAll (names : List String) : Ensures E I (retractAll names) anything := by
    induction names with
    | nil => exact .pure trivial
    | cons name names ih => exact .bind (retract name) fun _ _ => ih
  exact .bind (declareLocals (fun c hc => upheld.child hn hc) ∅) fun locals _ =>
    retractAll locals.names

variable (herase : ∀ s name, 0 < Scope.depth name → I s → I { s with scope := s.scope.erase name })

include herase

theorem WhileDeclared.insert {locals : NameSet} {s : State} (hs : WhileDeclared I locals.names s)
    {name : String} (hname : 0 < Scope.depth name) :
    WhileDeclared I (locals.insert name).names { s with scope := s.scope.insert name } := by
  obtain ⟨hlocals, hs⟩ := hs
  refine ⟨fun x hx => ?_, ?_⟩
  · rw [NameSet.mem_insert]
    exact (NameSet.mem_insert.1 (NameSet.mem_def.2 hx)).imp_left (hlocals x)
  · unfold NameSet.insert
    by_cases h : name ∈ locals.names
    · have := NameSet.eraseAll_insert_of_mem (s := s.scope) h
      unfold NameSet.insert at this
      simpa only [dif_pos h, this] using hs
    · have := NameSet.eraseAll_insert_of_mem (s := s.scope)
        (List.mem_append_right locals.names (List.mem_singleton_self name))
      unfold NameSet.insert at this
      simpa only [dif_neg h, this, NameSet.eraseAll_append_singleton] using herase _ name hname hs

theorem Upheld.declared_declareLocals (upheld : Upheld M E I N S)
    (hmeans : ∀ written name, Scope.Means written name → M written name)
    (hrun : ∀ ctx script, ¬S ctx script)
    (hn : N ctx n) (hkind : n.kind = .declarationCommand) {ns : List Node} (hns : ∀ m ∈ ns, N ctx m)
    {locals : NameSet} {s : State} (hs : WhileDeclared I locals.names s) :
    Declared E I ((declareLocals jump ctx n locals ns).exec s) := by
  induction ns generalizing locals s with
  | nil => exact hs
  | cons m ms ih =>
    have hm := hns m List.mem_cons_self
    have rest {locals : NameSet} {s : State} (hs : WhileDeclared I locals.names s) :=
      ih (fun k hk => hns k (List.mem_cons_of_mem m hk)) hs
    have upheld' := upheld.whileDeclared hmeans locals.names
    unfold declareLocals
    split
    · rename_i hassign
      refine (upheld'.ensures_text hm).declared_bind hs fun written t hwritten ht => ?_
      refine (upheld'.ensures_assigned (fun ctx script h => absurd h (hrun ctx script)) hm
        hassign).declared_bind ht fun value t _ ht => ?_
      refine (upheld'.ensures_assignTaint hm (.written (.declared hassign hwritten))
        value).declared_bind ht fun _ t _ ht => ?_
      exact rest (ht.insert herase (depth_localName ctx _))
    · refine (upheld'.ensures_firstCharacter hn hkind).declared_bind hs fun initial t _ ht => ?_
      exact rest (ht.insert herase (depth_localName ctx _))
    · exact rest hs

omit herase in
theorem exec_retractAll {names : List String} (hnodup : names.Nodup) {s : State}
    (hs : WhileDeclared I names s) : ∃ t, (retractAll names).exec s = (.ok (), t) ∧ I t := by
  induction names generalizing s with
  | nil => exact ⟨s, rfl, by simpa only [NameSet.eraseAll_nil] using hs.2⟩
  | cons name names ih =>
    obtain ⟨hname, hnodup⟩ := List.nodup_cons.1 hnodup
    obtain ⟨hlocals, hs⟩ := hs
    have hmem : name ∈ s.scope := hlocals name List.mem_cons_self
    have hrest : WhileDeclared I names { s with scope := s.scope.erase name } := by
      refine ⟨fun x hx => NameSet.mem_erase.2 ⟨hlocals x (List.mem_cons_of_mem name hx), ?_⟩, ?_⟩
      · rintro rfl
        exact hname hx
      · rwa [NameSet.eraseAll_cons] at hs
    obtain ⟨t, hexec, ht⟩ := ih hnodup hrest
    refine ⟨t, ?_, ht⟩
    simp only [retractAll, retract, exec_bind, exec_get, hmem, if_true, exec_modify]
    exact hexec

/-- A declaration whose values run no text keeps an invariant that does not mind the
loss of qualified names, and takes out of scope what it has brought into it. -/
theorem Upheld.ensures_localDeclaration {E' : Fault → Prop} (upheld : Upheld M E' I N S)
    (hmeans : ∀ written name, Scope.Means written name → M written name)
    (hrun : ∀ ctx script, ¬S ctx script)
    (hfault : ∀ fault, E' fault → E fault ∧ ∀ locals s, WhileDeclared I locals s → I s)
    (hn : N ctx n) (hkind : n.kind = .declarationCommand) :
    Ensures E I (localDeclaration jump ctx n) anything := by
  intro s hs
  have hstart : WhileDeclared I [] s :=
    ⟨fun name h => absurd h List.not_mem_nil, by simpa only [NameSet.eraseAll_nil] using hs⟩
  have declared : Declared E' I ((declareLocals jump ctx n ∅ n.children).exec s) :=
    upheld.declared_declareLocals herase hmeans hrun hn hkind (fun c hc => upheld.child hn hc)
      hstart
  unfold localDeclaration
  rw [exec_bind]
  rcases hexec : (declareLocals jump ctx n ∅ n.children).exec s with ⟨fault | locals, t⟩ <;>
    rw [hexec] at declared
  · obtain ⟨hE, locals, ht⟩ := declared
    exact ⟨(hfault fault hE).2 locals t ht, (hfault fault hE).1⟩
  · obtain ⟨u, hexec, hu⟩ := exec_retractAll locals.nodup declared
    simp only [hexec]
    exact ⟨hu, trivial⟩

end Locals

/-! ## Visits -/

namespace UpheldByVisits

variable {M : String → String → Prop} {E : Fault → Prop} {I : State → Prop}
  {N : Context → Node → Prop} {S : Context → String → Prop} (upheld : UpheldByVisits M E I N S)
  {ctx : Context} {n : Node}

include upheld

theorem ensures_defineFunction (hn : N ctx n) (hkind : n.kind = .functionDefinition) :
    Ensures E I (defineFunction n.children) anything := by
  unfold Walk.defineFunction
  split
  · rename_i hword
    exact .throw (upheld.fault hn (.name hkind (by rw [Node.isNamed, hword]; rfl)))
  · rename_i word hword
    have hchild : word ∈ n.children := List.mem_of_find?_eq_some hword
    refine .bind (upheld.ensures_text (upheld.child hn hchild)) fun name hname => ?_
    split
    · rename_i hempty
      refine .throw (upheld.fault hn (.name hkind ?_))
      simp [Node.isNamed, hword, hname, hempty]
    · have hdefines : n.defines? = some name := by
        rw [Node.defines?, if_pos hkind, hword]
        exact hname
      exact .modify fun _ hs => upheld.define hn hdefines hs

theorem ensures_opener (hn : N ctx n) (hasks : n.kind.asksForChildren = true) :
    Ensures E I (opener n.children) anything := by
  cases hchildren : n.children with
  | nil => exact .throw (upheld.fault hn (.child hasks hchildren))
  | cons c cs => exact .pure trivial

section Visits

variable {jump : Jump → Walk Unit}
  (hjump : ∀ j, Admitted N S j → Ensures E I (jump j) anything)

include hjump

theorem ensures_assignment (hn : N ctx n) (hkind : n.kind = .variableAssignment) :
    Ensures E I (assignment jump ctx n) anything := by
  unfold Walk.assignment
  refine .bind (upheld.ensures_text hn) fun written hwritten => ?_
  have htarget : String.ofList (Text.beforeEquals written.toList) ∈ n.lookups := by
    simp [Node.lookups, hkind, hwritten]
  exact .bind (upheld.ensures_resolve hn htarget) fun _ hmeans =>
    .bind (.when fun _ => upheld.ensures_subscript hn (by rw [hkind]; rfl)) fun _ _ =>
      .bind (upheld.ensures_assigned (fun ctx script => hjump (.script script ctx)) hn hkind)
        fun value hvalue =>
        .bind (.modify fun _ hs =>
          upheld.record hn (.assignment hkind hwritten hmeans.1 hvalue) hs) fun _ _ =>
            upheld.ensures_assignTaint hn (.written (.assigned hkind hwritten hmeans.2)) value

omit upheld hjump in
theorem ensures_visitAll_of_visit {parent : Kind} {first : Bool} {ns : List Node}
    (h : ∀ n ∈ ns, ∀ runs, Ensures E I (visit jump ctx runs n) anything) :
    Ensures E I (visitAll jump ctx parent first ns) anything := by
  induction ns generalizing first with
  | nil => exact .pure trivial
  | cons n ns ih =>
    unfold Walk.visitAll
    exact .bind (h n List.mem_cons_self _) fun _ _ =>
      ih fun m hm => h m (List.mem_cons_of_mem n hm)

omit hjump in
theorem ensures_visitBranches_of_visit {parent : Kind} {first : Bool} {ns : List Node}
    (h : ∀ n ∈ ns, ∀ runs, Ensures E I (visit jump ctx runs n) anything) :
    Ensures E I (visitBranches jump ctx parent first ns) anything := by
  induction ns generalizing first with
  | nil => exact .pure trivial
  | cons n ns ih =>
    unfold Walk.visitBranches
    exact .bind (upheld.ensures_joinTaint (h n List.mem_cons_self _)) fun _ _ =>
      ih fun m hm => h m (List.mem_cons_of_mem n hm)

theorem ensures_visitCommand_of_visit {first : Bool} {ns : List Node} (hns : ∀ n ∈ ns, N ctx n)
    (h : ∀ n ∈ ns, ∀ runs, Ensures E I (visit jump ctx runs n) anything) :
    Ensures E I (visitCommand jump ctx first ns) anything := by
  induction ns generalizing first with
  | nil => exact .pure trivial
  | cons n ns ih =>
    have hn := hns n List.mem_cons_self
    have rest : Ensures E I (visitCommand jump ctx false ns) anything :=
      ih (fun m hm => hns m (List.mem_cons_of_mem n hm)) fun m hm => h m (List.mem_cons_of_mem n hm)
    have next :=
      Ensures.bind (h n List.mem_cons_self (Kind.command.runsChild first)) fun _ _ => rest
    unfold Walk.visitCommand
    split
    · exact .pure trivial
    · rename_i hkind
      have callee : Ensures E I (callee n) fun name => n.calls? = some name := by
        unfold Walk.callee
        split
        · rename_i hchildren
          exact .throw (upheld.fault hn (.child (by rw [hkind]; rfl) hchildren))
        · rename_i word words hchildren
          refine (upheld.ensures_text
            (upheld.child hn (hchildren ▸ List.mem_cons_self))).weaken fun name hname => ?_
          rw [Node.calls?, if_pos hkind, hchildren]
          exact hname
      refine .bind callee fun name hname => ?_
      split
      · exact .pure trivial
      · have lookup : Ensures E I (lookup name) fun f? =>
            ∀ f ∈ f?, ∀ m ∈ f.body, N { ctx with function := name } m :=
          fun s hs => ⟨hs, fun f hf => upheld.body hn hname hs hf⟩
        refine .bind lookup fun f? hbody => ?_
        split
        · rename_i f
          split
          · exact .pure trivial
          · exact .bind (.modify fun _ hs => upheld.enter hn hname hs) fun _ _ =>
              .bind (hjump (.body f.body { ctx with function := name }) (hbody f rfl))
                fun _ _ => rest
        · exact next
    · exact next

theorem ensures_visit (hn : N ctx n)
    (hlocal : ∀ {ctx : Context} {n : Node}, N ctx n → n.kind = .declarationCommand →
      n.children.head?.any (·.kind = .localKeyword) = true →
        Ensures E I (localDeclaration jump ctx n) anything) (runs : Bool) :
    Ensures E I (visit jump ctx runs n) anything := by
  induction n using Node.induction generalizing runs with
  | step n ih =>
    have below (c : Node) (hc : c ∈ n.children) := ih c hc (upheld.child hn hc)
    have defineFunction := upheld.ensures_defineFunction hn
    have command := upheld.ensures_command (fun ctx script => hjump (.script script ctx)) hn
    have opener := upheld.ensures_opener hn
    have test := upheld.ensures_test hn
    have arithmetic := upheld.ensures_arithmetic hn
    have assignment := upheld.ensures_assignment hjump hn
    have subscript := upheld.ensures_subscript hn
    have expansion := upheld.ensures_expansionStatement hn
    have declared := hlocal hn
    have missing := fun hasks h => upheld.fault hn (.child hasks h)
    obtain ⟨kind, written, row, column, endColumn, children⟩ := n
    have all : Ensures E I (visitAll jump ctx kind true children) anything :=
      ensures_visitAll_of_visit below
    have branches : Ensures E I (visitBranches jump ctx kind true children) anything :=
      upheld.ensures_visitBranches_of_visit below
    unfold Walk.visit
    refine .bind (upheld.ensures_quiet (fun _ => rfl) (fun _ => rfl) fun _ => rfl) fun _ _ => ?_
    split
    · exact defineFunction rfl
    · exact .bind (command rfl) fun _ _ => upheld.ensures_visitCommand_of_visit hjump
        (fun c hc => upheld.child hn hc) below
    · exact .bind (opener rfl) fun opening _ => test opening false
    · exact .bind (opener rfl) fun opening _ => arithmetic opening false
    · refine .bind (upheld.ensures_declarePairs fun c hc => upheld.child hn hc) fun _ _ => ?_
      have isLocal : Ensures E I (isLocal children) fun own =>
          own = children.head?.any (·.kind = .localKeyword) := by
        cases children with
        | nil => exact .throw (missing rfl rfl)
        | cons c cs => exact .pure (by simp)
      refine .bind isLocal fun own hown => ?_
      split
      · exact declared rfl (by rw [← hown]; assumption)
      · exact all
    · exact assignment rfl
    · exact subscript rfl
    · exact branches
    · exact branches
    · split
      · exact expansion ‹_› runs
      · exact all

end Visits

/-! ## Jumps -/

/-- What holds of every single step holds of every jump, to any depth. The simple variables
of a text are recorded only if it cannot be parsed or a fault can stop its walk. -/
theorem ensures_follow {parse? : String → Option Node} (hspent : E .exhausted)
    (hlocal : ∀ {jump : Jump → Walk Unit} {ctx : Context} {n : Node},
      (∀ j, Admitted N S j → Ensures E I (jump j) anything) → N ctx n →
      n.kind = .declarationCommand → n.children.head?.any (·.kind = .localKeyword) = true →
        Ensures E I (localDeclaration jump ctx n) anything)
    (hparse : ∀ {ctx : Context} {script : String} {root : Node}, S ctx script →
      parse? (String.ofList (unquote script.toList)) = some root → N ctx root)
    (hunmark : ∀ {ctx : Context} {script : String} {s : State}, S ctx script →
      isVerbatim script.toList = false → I s →
        I { s with assigned := unmarkFirst ctx.line s.assigned })
    (hsimple : ∀ {ctx : Context} {script : String} {s : State}, S ctx script →
      (parse? (String.ofList (unquote script.toList)) = none ∨
        ∃ fault, E fault ∧ fault ≠ .exhausted) → I s →
          I { s with used := s.used ++ simpleUses ctx.line script })
    (budget : Nat) (jump : Jump) (hjump : Admitted N S jump) :
    Ensures E I (follow parse? budget jump) anything := by
  induction budget generalizing jump with
  | zero => exact .throw hspent
  | succ budget ih =>
    have visit {ctx : Context} {n : Node} (hn : N ctx n) (runs : Bool) :
        Ensures E I (visit (follow parse? budget) ctx runs n) anything :=
      upheld.ensures_visit ih hn (hlocal ih) runs
    cases jump with
    | body parts ctx => exact ensures_visitAll_of_visit fun n hn runs => visit (hjump n hn) runs
    | script script ctx =>
      unfold follow commandString
      split
      · exact .pure trivial
      · -- Whatever fault the string stops with is recovered from, a failed parse included.
        let failed := parse? (String.ofList (unquote script.toList)) = none
        refine @Ensures.recovering E I (fun fault => E fault ∨ fault = .parseFailed ∧ failed) _ _
          (.bind (.when fun hopen => .modify fun _ hs => hunmark hjump hopen hs) fun _ _ => ?_)
          ?_ ?_
        · split
          · rename_i root hroot
            exact (visit (hparse hjump hroot) false).allowing fun _ => .inl
          · rename_i hroot
            exact .throw (.inr ⟨rfl, hroot⟩)
        · exact fun h => h.elim id fun h => by cases h.1
        · rintro fault hfault hne
          refine .modify fun s hs => hsimple hjump ?_ hs
          exact hfault.elim (fun hE => .inr ⟨fault, hE, hne⟩) fun hfailed => .inl hfailed.2

end UpheldByVisits

end Walk

end ShellAudit
