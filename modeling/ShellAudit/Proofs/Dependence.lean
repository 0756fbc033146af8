-- SUMMARY: After a sequence of assignments the tainted names are those that depend on a source.
import Mathlib.Data.List.Chain
import ShellAudit.Proofs.Spelling

/-!
# Dependence on sources

In a program that only assigns variables, a name is tainted at the end exactly if its last
value goes back to a source through assignments, each of which reads what the one before has
assigned. The walk goes forward and cleans what is overwritten; the chain is looked at from
its end, and a link is to the last assignment before.
-/

namespace ShellAudit

/-! ## Programs of assignments -/

/-- A name that an assignment may have: none of an element, a local variable or an appended
value. -/
structure IsPlainName (name : String) : Prop where
  nonempty : name ≠ ""
  plain {c : Char} : c ∈ name.toList → c ∉ ['.', '[', '+', '=', '$']

theorem IsPlainName.not_mem {name : String} (h : IsPlainName name) {c : Char}
    (hc : c ∈ ['.', '[', '+', '=', '$']) : c ∉ name.toList :=
  fun hmem => h.plain hmem hc

/-- The node is an expansion of a variable, alone or as the first parameter in braces. -/
def Node.RefersTo (m : Node) (name : String) : Prop :=
  (m.kind = .simpleExpansion ∧ m.text = some ("$" ++ name)) ∨
    (m.kind = .expansion ∧ ∃ front parameter back, m.children = front ++ parameter :: back ∧
      (∀ c ∈ front, c.Every (·.kind.isParameter = false)) ∧
      (parameter.kind = .variableName ∨ parameter.kind = .specialVariableName) ∧
      parameter.text = some name)

/-- A node as values without commands have it. If it is an expansion, it is one of a variable;
the only one with a dollar sign in its name is the number of the process. -/
structure Node.IsPlain (m : Node) : Prop where
  readable : m.text.isSome = true
  quiet : m.kind ≠ .command
  expands : m.kind.isExpansion = true →
    ∃ name, m.RefersTo name ∧ name ≠ "" ∧ (name = "$" ∨ '$' ∉ name.toList)

/-- An assignment of a plain value to a plain name. -/
structure Node.Assigns (a : Node) (name : String) (value : Node) : Prop where
  kind : a.kind = .variableAssignment
  text : ∃ rest, a.text = some (name ++ "=" ++ rest)
  name : IsPlainName name
  last : a.children.getLast? = some value
  plain : value.Every Node.IsPlain

/-- The nodes are assignments, with tokens between them. -/
inductive Straight : List Node → List (String × Node) → Prop
  | nil : Straight [] []
  | token {n : Node} {token : String} {ns : List Node} {program : List (String × Node)} :
      n.kind = .other token → n.kind.isExpansion = false → n.children = [] →
      Straight ns program → Straight (n :: ns) program
  | assignment {a value : Node} {name : String} {ns : List Node}
      {program : List (String × Node)} :
      a.Assigns name value → Straight ns program → Straight (a :: ns) ((name, value) :: program)

theorem Straight.isPlainName {ns : List Node} {program : List (String × Node)}
    (h : Straight ns program) {name : String} {value : Node} (hmem : (name, value) ∈ program) :
    IsPlainName name := by
  induction h with
  | nil => cases hmem
  | token _ _ _ _ ih => exact ih hmem
  | assignment hassigns _ ih =>
    rcases List.mem_cons.1 hmem with heq | hmem
    · cases heq
      exact hassigns.name
    · exact ih hmem

/-! ## Chains -/

namespace Program

variable (program : List (String × Node))

/-- The value of the assignment `i` refers to a variable. -/
def ReadsAt (i : Nat) (name : String) : Prop :=
  ∃ target value, program[i]? = some (target, value) ∧ ∃ m ∈ value.all, m.RefersTo name

/-- The assignment `i` is the last one to the name before the assignment `j`. -/
def LastBefore (name : String) (j i : Nat) : Prop :=
  i < j ∧ (program.map (·.1))[i]? = some name ∧
    ∀ k, i < k → k < j → (program.map (·.1))[k]? ≠ some name

/-- A chain of assignments from a source to the last assignment to a name before `j`. Each
reads a name that the one before it was the last to assign. -/
structure Chain (j : Nat) (name : String) (chain : List Nat) : Prop where
  source : ∃ first, chain.head? = some first ∧ ∃ x ∈ userControlled, ReadsAt program first x
  links : chain.IsChain fun i k => ∃ x, LastBefore program x k i ∧ ReadsAt program k x
  last : ∃ i, chain.getLast? = some i ∧ LastBefore program name j i

variable {program}

theorem not_lastBefore_zero {name : String} {i : Nat} : ¬ LastBefore program name 0 i :=
  fun h => Nat.not_lt_zero i h.1

/-- The assignment before `n + 1` is the last one to its own name. -/
theorem lastBefore_succ_self {name : String} {value : Node} {n i : Nat}
    (hn : program[n]? = some (name, value)) : LastBefore program name (n + 1) i ↔ i = n := by
  have hname : (program.map (·.1))[n]? = some name := by rw [List.getElem?_map, hn]; rfl
  constructor
  · rintro ⟨hlt, -, hnone⟩
    by_contra hne
    exact hnone n (by omega) (by omega) hname
  · rintro rfl
    exact ⟨Nat.lt_succ_self i, hname, fun k hik hk => by omega⟩

/-- It does not count for other names. -/
theorem lastBefore_succ_of_ne {name other : String} {value : Node} {n i : Nat}
    (hn : program[n]? = some (name, value)) (hne : other ≠ name) :
    LastBefore program other (n + 1) i ↔ LastBefore program other n i := by
  have hname : (program.map (·.1))[n]? ≠ some other := by
    rw [List.getElem?_map, hn]
    exact fun h => hne (Option.some.inj h).symm
  constructor
  · rintro ⟨hlt, hi, hnone⟩
    have hni : i ≠ n := fun heq => hname (heq ▸ hi)
    exact ⟨by omega, hi, fun k hik hk => hnone k hik (by omega)⟩
  · rintro ⟨hlt, hi, hnone⟩
    refine ⟨by omega, hi, fun k hik hk => ?_⟩
    by_cases hkn : k = n
    · exact hkn ▸ hname
    · exact hnone k hik (by omega)

theorem chain_succ_of_ne {name other : String} {value : Node} {n : Nat}
    (hn : program[n]? = some (name, value)) (hne : other ≠ name) {chain : List Nat} :
    Chain program (n + 1) other chain ↔ Chain program n other chain := by
  constructor
  · rintro ⟨hsource, hlinks, i, hi, hlast⟩
    exact ⟨hsource, hlinks, i, hi, (lastBefore_succ_of_ne hn hne).1 hlast⟩
  · rintro ⟨hsource, hlinks, i, hi, hlast⟩
    exact ⟨hsource, hlinks, i, hi, (lastBefore_succ_of_ne hn hne).2 hlast⟩

/-- A chain to an assignment is that assignment alone, if it reads a source, or goes on from a
chain to a name that it reads. -/
theorem exists_chain_succ_self {name : String} {value : Node} {n : Nat}
    (hn : program[n]? = some (name, value)) :
    (∃ chain, Chain program (n + 1) name chain) ↔
      ∃ x, ReadsAt program n x ∧ (x ∈ userControlled ∨ ∃ chain, Chain program n x chain) := by
  constructor
  · rintro ⟨chain, ⟨first, hfirst, x, hx, hreads⟩, hlinks, i, hi, hlast⟩
    obtain rfl := (lastBefore_succ_self hn).1 hlast
    obtain ⟨front, rfl⟩ := List.getLast?_eq_some_iff.1 hi
    rcases List.eq_nil_or_concat' front with rfl | ⟨init, k, rfl⟩
    · cases hfirst
      exact ⟨x, hreads, .inl hx⟩
    · rw [List.isChain_append] at hlinks
      obtain ⟨hlinks, -, hlink⟩ := hlinks
      obtain ⟨y, hbefore, hread⟩ := hlink k (by simp) i (by simp)
      refine ⟨y, hread, .inr ⟨init ++ [k], ⟨first, ?_, x, hx, hreads⟩, hlinks, k, by simp, hbefore⟩⟩
      rwa [List.head?_append_of_ne_nil _ (by simp)] at hfirst
  · have hself : LastBefore program name (n + 1) n := (lastBefore_succ_self hn).2 rfl
    rintro ⟨x, hreads, hx | ⟨chain, ⟨first, hfirst, hsource⟩, hlinks, i, hi, hlast⟩⟩
    · exact ⟨[n], ⟨n, rfl, x, hx, hreads⟩, .singleton n, n, rfl, hself⟩
    · refine ⟨chain ++ [n], ⟨first, ?_, hsource⟩, ?_, n, by simp, hself⟩
      · rw [List.head?_append, hfirst]
        rfl
      · rw [List.isChain_append]
        refine ⟨hlinks, .singleton n, ?_⟩
        intro k hk j hj
        cases hj
        obtain rfl : i = k := Option.some.inj (hi.symm.trans hk)
        exact ⟨x, hlast, hreads⟩

theorem readsAt_iff {name x : String} {value : Node} {n : Nat}
    (hn : program[n]? = some (name, value)) :
    ReadsAt program n x ↔ ∃ m ∈ value.all, m.RefersTo x := by
  constructor
  · rintro ⟨target, other, hother, hrefers⟩
    cases hn.symm.trans hother
    exact hrefers
  · exact fun hrefers => ⟨name, value, hn, hrefers⟩

/-- What a chain leads to is assigned by the program. -/
theorem Chain.isPlainName {j : Nat} {name : String} {chain : List Nat}
    (h : Chain program j name chain) (hnames : ∀ p ∈ program, IsPlainName p.1) :
    IsPlainName name := by
  obtain ⟨i, -, -, hi, -⟩ := h.last
  obtain ⟨p, hp, rfl⟩ := List.mem_map.1 (List.mem_of_getElem? hi)
  exact hnames p hp

end Program

/-! ## What a value reads -/

namespace Node

/-- In braces a variable is read by its name. -/
theorem RefersTo.reads_of_braces {m : Node} {name : String} (h : m.RefersTo name)
    (hkind : m.kind = .expansion) (hname : name ≠ "") : m.reads? = some name := by
  rcases h with ⟨hsimple, -⟩ | ⟨-, front, parameter, back, hchildren, hfront, hparameter, htext⟩
  · exact absurd (hsimple.symm.trans hkind) (by decide)
  · refine reads?_braced hkind hname ⟨front, parameter, back, hchildren, hfront, ?_, htext⟩
    rcases hparameter with hparameter | hparameter <;> rw [hparameter] <;> rfl

theorem RefersTo.text_eq {m : Node} {name : String} (h : m.RefersTo name)
    (hkind : m.kind = .simpleExpansion) : m.text = some ("$" ++ name) := by
  rcases h with ⟨-, htext⟩ | ⟨hbraces, -⟩
  · exact htext
  · exact absurd (hbraces.symm.trans hkind) (by decide)

/-- A plain node reads what it refers to. The number of the process is an exception: it is
read under an empty name. -/
theorem IsPlain.reads_iff {m : Node} (h : m.IsPlain) {name : String} (hempty : name ≠ "")
    (hprocess : name ≠ "$") : m.reads? = some name ↔ m.RefersTo name := by
  have hsimple (hkind : m.kind = .simpleExpansion) :
      m.reads? = some name ↔ m.text = some ("$" ++ name) := by
    obtain ⟨own, hown, -, hdollar⟩ := h.expands (by rw [hkind]; rfl)
    have htext := hown.text_eq hkind
    have hsame : m.text = some ("$" ++ name) ↔ name = own := by
      rw [htext, Option.some.injEq, String.append_right_inj]
      exact eq_comm
    rw [hsame]
    rcases hdollar with rfl | hdollar
    · have hread : m.reads? = some "" := by
        simp only [reads?, hkind, htext]
        decide
      rw [hread, Option.some.injEq]
      exact iff_of_false (Ne.symm hempty) hprocess
    · rw [reads?_bare hkind htext hdollar, Option.some.injEq]
      exact eq_comm
  constructor
  · intro hreads
    unfold reads? at hreads
    split at hreads
    · rename_i hkind
      obtain ⟨own, hown, hne, -⟩ := h.expands (by rw [hkind]; rfl)
      have hread := hown.reads_of_braces hkind hne
      simp only [reads?, hkind] at hread
      rw [hread] at hreads
      cases hreads
      exact hown
    · rename_i hkind
      refine .inl ⟨hkind, (hsimple hkind).1 ?_⟩
      simp only [reads?, hkind]
      exact hreads
    · cases hreads
  · intro hrefers
    rcases hrefers with ⟨hkind, htext⟩ | ⟨hkind, hparameter⟩
    · exact (hsimple hkind).2 htext
    · exact RefersTo.reads_of_braces (.inr ⟨hkind, hparameter⟩) hkind hempty

end Node

namespace Walk

variable {jump : Jump → Walk Unit} {ctx : Context}

/-! ## Assignments return -/

/-- No fault is allowed. -/
def never (_ : Fault) : Prop := False

/-- No name in scope has a qualifier. -/
def Unqualified (s : State) : Prop := ∀ x ∈ s.scope, Scope.depth x = 0

theorem ensures_text_of_readable {n : Node} (h : n.text.isSome = true) :
    Ensures never Unqualified (text n) fun written => n.text = some written := by
  obtain ⟨written, htext⟩ := Option.isSome_iff_exists.1 h
  unfold Walk.text
  rw [htext]
  exact .pure rfl

theorem ensures_subscript_of_readable {n : Node} (h : n.text.isSome = true) :
    Ensures never Unqualified (subscript ctx n) anything :=
  .bind (ensures_text_of_readable h) fun _ _ => .modify fun _ hs => hs

theorem braced_of_plain {n : Node} (h : n.IsPlain) (hkind : n.kind = .expansion)
    (frame : Option Frame) : ∃ part, braced n frame = .ok part := by
  obtain ⟨name, hname, hne, -⟩ := h.expands (by rw [hkind]; rfl)
  obtain ⟨content, hcontent⟩ := Option.isSome_iff_exists.1 h.readable
  have hread := hname.reads_of_braces hkind hne
  simp only [Node.reads?, hkind] at hread
  cases hparameter : parameter? n with
  | error fault =>
    rw [hparameter] at hread
    cases hread
  | ok found =>
    rw [hparameter] at hread
    obtain rfl : found = some name := hread
    simp only [braced, hparameter, hcontent]
    exact ⟨_, rfl⟩

/-- Reading a plain value returns, and puts nothing in scope. -/
theorem ensures_parts_of_plain {n : Node} (h : n.Every Node.IsPlain) :
    Ensures never Unqualified (parts jump ctx n) anything := by
  have all {ns : List Node} (h : ∀ c ∈ ns, Ensures never Unqualified (parts jump ctx c) anything) :
      Ensures never Unqualified (partsAll jump ctx ns) anything := by
    induction ns with
    | nil => exact .pure trivial
    | cons c cs ih =>
      unfold Walk.partsAll
      exact .bind (h c List.mem_cons_self) fun _ _ =>
        .bind (ih fun d hd => h d (List.mem_cons_of_mem c hd)) fun _ _ => .pure trivial
  induction n using Node.induction with
  | step n ih =>
    obtain ⟨hplain, hchildren⟩ := Node.every_iff.1 h
    have hall := all fun c hc => ih c hc (hchildren c hc)
    have hown (recorded : Walk (Option Command)) :
        Ensures never Unqualified (ownPart ctx recorded n) anything := by
      unfold Walk.ownPart
      split
      · rename_i hkind
        obtain ⟨part, hpart⟩ := braced_of_plain hplain hkind (some (frameOf n))
        rw [hpart]
        exact .bind (.liftExcept (Q := anything) trivial) fun _ _ => .pure trivial
      · exact .bind (ensures_text_of_readable hplain.readable) fun _ _ => .pure trivial
      · exact absurd ‹n.kind = .command› hplain.quiet
      · exact .bind (ensures_subscript_of_readable hplain.readable) fun _ _ => .pure trivial
      · exact .pure trivial
    obtain ⟨kind, written, row, column, endColumn, children⟩ := n
    unfold Walk.parts
    exact .bind (hown _) fun _ _ => .bind hall fun _ _ => .pure trivial

theorem ensures_assignment_of_plain {a value : Node} {name : String} (h : a.Assigns name value)
    (runs : Bool) : Ensures never Unqualified (visit jump ctx runs a) anything := by
  obtain ⟨rest, htext⟩ := h.text
  have hspelled : String.ofList (Text.beforeEquals (name ++ "=" ++ rest).toList) = name := by
    have hcut := spelledName_append_equals name rest
    rwa [spelledName, spelledName_eq_self (h.name.not_mem (by decide))] at hcut
  have hresolve : Ensures never Unqualified (resolve name) anything := by
    intro s hs
    have hfree : Scope.qualified? s.scope name = none :=
      Scope.qualified?_eq_none fun x hx hdepth => absurd (hs x hx) (Nat.ne_of_gt hdepth)
    unfold Walk.resolve
    simp only [exec_bind, exec_get, hfree, exec_modify, exec_pure]
    refine ⟨fun x hx => ?_, trivial⟩
    rcases NameSet.mem_insert.1 hx with hx | rfl
    · exact hs x hx
    · exact List.count_eq_zero.2 (h.name.not_mem (by decide))
  have hvalue : Ensures never Unqualified (lastValue jump ctx a.children) anything := by
    have hreadable := (Node.every_iff.1 h.plain).1.readable
    rw [lastValue_of_getLast? h.last]
    unfold Walk.lastValue
    exact .bind (ensures_parts_of_plain h.plain) fun _ _ =>
      .bind (ensures_text_of_readable hreadable) fun _ _ => .pure trivial
  rw [visit_assignment h.kind]
  refine .bind (.modify fun _ hs => hs) fun _ _ => ?_
  unfold Walk.assignment
  refine .bind (ensures_text_of_readable (by rw [htext]; rfl)) fun written hwritten => ?_
  obtain rfl : written = name ++ "=" ++ rest := Option.some.inj (hwritten.symm.trans htext)
  have htarget : '[' ∉ Text.beforeEquals (name ++ "=" ++ rest).toList := by
    have hlist := congrArg String.toList hspelled
    rw [String.toList_ofList] at hlist
    rw [hlist]
    exact h.name.not_mem (by decide)
  simp only [hspelled]
  exact .bind hresolve fun _ _ => .bind (.when fun hbracket => absurd hbracket htarget) fun _ _ =>
    .bind hvalue fun _ _ => .bind (.modify fun _ hs => hs) fun _ _ => .modify fun _ hs => hs

/-! ## The walk of a program -/

/-- The walk stands before the assignment `n`: what is tainted is what depends on a source. -/
structure Tracks (program : List (String × Node)) (n : Nat) (s : State) : Prop where
  unqualified : Unqualified s
  tainted (x : String) : x ∈ s.tainted ↔ ∃ chain, Program.Chain program n x chain

/-- A value carries user input exactly if it refers to a source or to what depends on one. -/
theorem Tracks.reads_iff {program : List (String × Node)} {n : Nat} {s : State}
    (h : Tracks program n s) (hnames : ∀ p ∈ program, IsPlainName p.1) {name : String}
    {value : Node} (hn : program[n]? = some (name, value)) (hvalue : value.Every Node.IsPlain) :
    (∃ m ∈ value.all, ∃ y, m.reads? = some y ∧ (y ∈ userControlled ∨ y ∈ s.tainted)) ↔
      ∃ y, Program.ReadsAt program n y ∧
        (y ∈ userControlled ∨ ∃ chain, Program.Chain program n y chain) := by
  have hplain := Node.every_iff_forall_all.1 hvalue
  have hnamed {y : String} (hy : y ∈ userControlled ∨ y ∈ s.tainted) : y ≠ "" ∧ y ≠ "$" := by
    rcases hy with hy | hy
    · have hsources : ∀ y ∈ userControlled, y ≠ "" ∧ y ≠ "$" := by decide
      exact hsources y hy
    · obtain ⟨chain, hchain⟩ := (h.tainted y).1 hy
      have hname := hchain.isPlainName hnames
      refine ⟨hname.nonempty, ?_⟩
      rintro rfl
      exact hname.not_mem (c := '$') (by decide) (by decide)
  constructor
  · rintro ⟨m, hm, y, hy, hcarries⟩
    obtain ⟨hempty, hprocess⟩ := hnamed hcarries
    have hrefers := ((hplain m hm).reads_iff hempty hprocess).1 hy
    exact ⟨y, (Program.readsAt_iff hn).2 ⟨m, hm, hrefers⟩, hcarries.imp_right (h.tainted y).1⟩
  · rintro ⟨y, hy, hcarries⟩
    have hcarries := hcarries.imp_right (h.tainted y).2
    obtain ⟨hempty, hprocess⟩ := hnamed hcarries
    obtain ⟨m, hm, hrefers⟩ := (Program.readsAt_iff hn).1 hy
    exact ⟨m, hm, y, ((hplain m hm).reads_iff hempty hprocess).2 hrefers, hcarries⟩

/-- The step: an assignment goes by what the program has assigned to the names it reads. -/
theorem Tracks.visit {program : List (String × Node)} {n : Nat} {s : State}
    (h : Tracks program n s) (hnames : ∀ p ∈ program, IsPlainName p.1) {a value : Node}
    {name : String} (ha : a.Assigns name value) (hn : program[n]? = some (name, value))
    (parse? : String → Option Node) (budget : Nat) (ctx : Context) (runs : Bool) :
    ∃ t, (Walk.visit (follow parse? budget) ctx runs a).exec s = (.ok (), t) ∧
      Tracks program (n + 1) t := by
  have hensures : Ensures never Unqualified (Walk.visit (follow parse? budget) ctx runs a)
      anything := ensures_assignment_of_plain ha runs
  obtain ⟨hunqualified, hresult⟩ := hensures s h.unqualified
  rcases hexec : (Walk.visit (follow parse? budget) ctx runs a).exec s with ⟨fault | ⟨⟩, t⟩
  · rw [hexec] at hresult
    exact hresult.elim
  rw [hexec] at hunqualified
  have hwrites : Writes parse? a name value s t :=
    ⟨ha.kind, ha.text, ha.last, budget, ctx, runs, hexec⟩
  obtain ⟨target, read, u, -, hself, hreads, htainted⟩ := hwrites.assigned
  rw [spelledName_eq_self (ha.name.not_mem (by decide))] at hself
  obtain rfl : target = name := hself <|
    Scope.qualified?_eq_none fun x hx hdepth => absurd (h.unqualified x hx) (Nat.ne_of_gt hdepth)
  have hquiet : value.Every (·.kind ≠ .command) := ha.plain.imp fun _ hm => hm.quiet
  refine ⟨t, rfl, hunqualified, fun x => ?_⟩
  rw [htainted]
  by_cases hx : x = target
  · subst hx
    rw [NameSet.mem_assign_self, hreads.carries_iff hquiet, h.reads_iff hnames hn ha.plain]
    exact (Program.exists_chain_succ_self hn).symm
  · rw [NameSet.mem_assign_of_ne hx, hreads.same hquiet, h.tainted]
    exact exists_congr fun chain => (Program.chain_succ_of_ne hn hx).symm

theorem visit_token {n : Node} {token : String} (hkind : n.kind = .other token)
    (hexpansion : n.kind.isExpansion = false) (hchildren : n.children = []) (runs : Bool)
    (s : State) :
    (Walk.visit jump ctx runs n).exec s = (.ok (), { s with visits := s.visits + 1 }) := by
  obtain ⟨kind, written, row, column, endColumn, children⟩ := n
  cases hkind
  cases hchildren
  simp only at hexpansion
  simp only [Walk.visit, exec_bind, countVisit, exec_modify, hexpansion, Bool.false_eq_true,
    if_false, Walk.visitAll, exec_pure]

/-- The run, by induction on the nodes of the program that are left. -/
theorem Tracks.visitAll (front : List (String × Node)) {program : List (String × Node)}
    {s : State} {ns : List Node} (hstraight : Straight ns program)
    (h : Tracks (front ++ program) front.length s)
    (hnames : ∀ p ∈ front ++ program, IsPlainName p.1) (parse? : String → Option Node)
    (budget : Nat) (ctx : Context) (parent : Kind) (first : Bool) :
    ∃ t, (Walk.visitAll (follow parse? budget) ctx parent first ns).exec s = (.ok (), t) ∧
      Tracks (front ++ program) (front ++ program).length t := by
  induction hstraight generalizing front s first with
  | nil =>
    refine ⟨s, rfl, ?_⟩
    rw [List.append_nil] at h ⊢
    exact h
  | @token n token ns program hkind hexpansion hchildren _ ih =>
    have hvisited : Tracks (front ++ program) front.length { s with visits := s.visits + 1 } :=
      ⟨h.unqualified, h.tainted⟩
    obtain ⟨t, hrest, ht⟩ := ih front hvisited hnames false
    refine ⟨t, ?_, ht⟩
    unfold Walk.visitAll
    rw [exec_bind, visit_token hkind hexpansion hchildren]
    exact hrest
  | @assignment a value name ns program hassigns _ ih =>
    have hn : (front ++ (name, value) :: program)[front.length]? = some (name, value) := by simp
    obtain ⟨t, hexec, ht⟩ := h.visit hnames hassigns hn parse? budget ctx (parent.runsChild first)
    have happend : front ++ (name, value) :: program = front ++ [(name, value)] ++ program :=
      List.append_cons front (name, value) program
    have hlength : front.length + 1 = (front ++ [(name, value)]).length := by simp
    rw [happend] at hnames ht ⊢
    rw [hlength] at ht
    obtain ⟨u, hrest, hu⟩ := ih _ ht hnames false
    refine ⟨u, ?_, hu⟩
    unfold Walk.visitAll
    rw [exec_bind, hexec]
    exact hrest

end Walk

/-- In a program of assignments a name is tainted at the end exactly if there is a chain of
assignments from a source to the last assignment to it. -/
theorem Survey.tainted_iff_chain (g : Grammar) (text : String) {node : Node}
    {program : List (String × Node)} (hparse : g.parse? text = some node)
    (hkind : node.kind = .program) (hstraight : Straight node.children program) :
    ∃ survey, (Survey.ofScript g text).result = .ok survey ∧
      ∀ x, x ∈ survey.tainted ↔ ∃ chain, Program.Chain program program.length x chain := by
  have hnames : ∀ p ∈ program, IsPlainName p.1 := fun _ hp => hstraight.isPlainName hp
  have hstart : Walk.Tracks program 0 { ({} : Walk.State) with visits := 1 } := by
    refine ⟨fun x hx => absurd hx (NameSet.not_mem_empty x), fun x => ?_⟩
    refine iff_of_false (NameSet.not_mem_empty x) ?_
    rintro ⟨chain, hchain⟩
    obtain ⟨i, -, hlast⟩ := hchain.last
    exact Program.not_lastBefore_zero hlast
  let budget := Walk.budgetFor g [] [node]
  obtain ⟨t, hexec, ht⟩ := Walk.Tracks.visitAll [] hstraight hstart hnames g.parse? budget {}
    .program true
  have hscript : (Walk.script g text).exec {} = (.ok (), t) := by
    obtain ⟨kind, written, row, column, endColumn, children⟩ := node
    cases hkind
    simp only [Walk.script, hparse, Walk.root, Walk.jumping, Walk.exec_bind, Walk.exec_get,
      Walk.visit, Walk.countVisit, Walk.exec_modify]
    exact hexec
  refine ⟨t.toSurvey, ?_, ht.tainted⟩
  rw [Survey.ofScript, hscript]

/-- The script `a=$1`, `b=${a}` and `a=x`. -/
def overwritingText : String := "a=$1;b=$\x7ba\x7d;a=x"

def bracedTree (start : Nat) : Tree :=
  ⟨.expansion, start, start + 4,
    [⟨.other "$\x7b", start, start + 2, []⟩, ⟨.variableName, start + 2, start + 3, []⟩,
      ⟨.other "\x7d", start + 3, start + 4, []⟩]⟩

def overwritingTree : Tree :=
  ⟨.program, 0, 15,
    [Walk.assignmentTree (Walk.variableTree 0 1) (Walk.expansionTree 2 1), ⟨.other ";", 4, 5, []⟩,
      Walk.assignmentTree (Walk.variableTree 5 1) (bracedTree 7), ⟨.other ";", 11, 12, []⟩,
      Walk.assignmentTree (Walk.variableTree 12 1) ⟨.word, 14, 15, []⟩]⟩

/-- The assignments of the script, with the nodes of their values. -/
def overwritingProgram : List (String × Node) :=
  [("a", Walk.expansionTree 2 1), ("b", bracedTree 7), ("a", ⟨.word, 14, 15, []⟩)].map fun p =>
    (p.1, p.2.resolve (Tree.bytes overwritingText))

/-- `b` has kept what was in `a`, which has been overwritten. -/
theorem Survey.tainted_iff_chain_overwriting :
    let node := overwritingTree.resolve (Tree.bytes overwritingText)
    let g : Grammar := ⟨[(overwritingText, some overwritingTree)]⟩
    Straight node.children overwritingProgram ∧
      Program.Chain overwritingProgram 3 "b" [0, 1] ∧
      (¬∃ chain, Program.Chain overwritingProgram 3 "a" chain) ∧
      ∃ survey, (Survey.ofScript g overwritingText).result = .ok survey ∧
        "b" ∈ survey.tainted ∧ "a" ∉ survey.tainted := by
  intro node g
  have hleaf {n : Node} (h : n.Every fun m => m.text.isSome = true ∧ m.kind ≠ .command ∧
      m.kind.isExpansion = false) : n.Every Node.IsPlain :=
    h.imp fun m hm => ⟨hm.1, hm.2.1, fun he => absurd (hm.2.2.symm.trans he) (by decide)⟩
  have hvariable {n : Node} {name : String} (hname : n.RefersTo name)
      (hplain : name ≠ "" ∧ (name = "$" ∨ '$' ∉ name.toList)) (hn : n.text.isSome = true ∧
        n.kind ≠ .command ∧ ∀ c ∈ n.children, c.Every fun m => m.text.isSome = true ∧
          m.kind ≠ .command ∧ m.kind.isExpansion = false) : n.Every Node.IsPlain :=
    Node.every_iff.2
      ⟨⟨hn.1, hn.2.1, fun _ => ⟨name, hname, hplain⟩⟩, fun c hc => hleaf (hn.2.2 c hc)⟩
  have hfirst : ((Walk.expansionTree 2 1).resolve (Tree.bytes overwritingText)).RefersTo "1" :=
    .inl ⟨rfl, by decide +kernel⟩
  have hsecond : ((bracedTree 7).resolve (Tree.bytes overwritingText)).RefersTo "a" :=
    .inr ⟨rfl, [_], _, [_], rfl, by decide +kernel, .inl rfl, by decide +kernel⟩
  have ha : IsPlainName "a" := ⟨by decide, fun hc => by rw [List.mem_singleton.1 hc]; decide⟩
  have hb : IsPlainName "b" := ⟨by decide, fun hc => by rw [List.mem_singleton.1 hc]; decide⟩
  have hstraight : Straight node.children overwritingProgram :=
    .assignment ⟨rfl, ⟨"$1", by decide +kernel⟩, ha, rfl,
        hvariable hfirst (by decide) (by decide +kernel)⟩ <|
      .token rfl (by decide) rfl <|
      .assignment ⟨rfl, ⟨"$\x7ba\x7d", by decide +kernel⟩, hb, rfl,
        hvariable hsecond (by decide) (by decide +kernel)⟩ <|
      .token rfl (by decide) rfl <|
      .assignment ⟨rfl, ⟨"x", by decide +kernel⟩, ha, rfl, hleaf (by decide +kernel)⟩ .nil
  have hchain : Program.Chain overwritingProgram 3 "b" [0, 1] := by
    refine ⟨⟨0, rfl, "1", by decide, "a", _, rfl, _, ?_, hfirst⟩, ?_, 1, rfl, by decide, rfl, ?_⟩
    · rw [Node.all_eq]
      exact List.mem_cons_self
    · have hbefore : Program.LastBefore overwritingProgram "a" 1 0 :=
        ⟨by decide, rfl, fun k hk hlt => by omega⟩
      refine .cons_cons ⟨"a", hbefore, "b", _, rfl, _, ?_, hsecond⟩ (.singleton 1)
      rw [Node.all_eq]
      exact List.mem_cons_self
    · intro k hk hlt
      obtain rfl : k = 2 := by omega
      decide
  obtain ⟨survey, hresult, htainted⟩ := tainted_iff_chain g overwritingText rfl rfl hstraight
  have hclean : ((Survey.ofScript g overwritingText).result.toOption.any
      fun survey => !decide ("a" ∈ survey.tainted)) = true := by decide +kernel
  rw [hresult] at hclean
  have hnot : "a" ∉ survey.tainted := by simpa [Except.toOption] using hclean
  exact ⟨hstraight, hchain, fun h => hnot ((htainted "a").2 h), survey, hresult,
    (htainted "b").2 ⟨[0, 1], hchain⟩, hnot⟩

end ShellAudit
