-- SUMMARY: Every record of a walk is made for a node that the walk comes to, where it stands there.
import ShellAudit.Proofs.Locals

/-!
# Where records come from

A walk comes to the nodes of its tree and, by jumps, to those of function bodies and of
command strings. `Comes` says which nodes these are and in which contexts, and `Found`
which records can be made for them. Every record that a walk adds is found in this way;
the others were there before, except that a mark may have come off.
-/

namespace ShellAudit

/-- The second record is the first, except that its mark may have come off. -/
inductive Entry.Kept : Entry → Entry → Prop
  | refl (e : Entry) : Kept e e
  | assignment {a b : Assignment} : a.Kept b → Kept (.assignment a) (.assignment b)

theorem Entry.Kept.trans {d e f : Entry} (hde : d.Kept e) (hef : e.Kept f) : d.Kept f := by
  cases hef with
  | refl => exact hde
  | assignment hef =>
    cases hde with
    | refl => exact .assignment hef
    | assignment hde => exact .assignment (hde.trans hef)

namespace Survey

/-- Taking off a mark changes no record otherwise. -/
theorem mem_unmark {survey : Survey} {line : Int} {e : Entry}
    (h : e ∈ { survey with assigned := Walk.unmarkFirst line survey.assigned }) :
    ∃ d ∈ survey, d.Kept e := by
  cases e with
  | assignment a =>
    obtain ⟨b, hb, hkept⟩ := Walk.mem_unmarkFirst h
    exact ⟨.assignment b, hb, .assignment hkept⟩
  | _ => exact ⟨_, h, .refl _⟩

theorem mem_addUses {survey : Survey} {uses : List Use} {e : Entry}
    (h : e ∈ { survey with used := survey.used ++ uses }) :
    e ∈ survey ∨ ∃ u ∈ uses, e = .use u := by
  cases e with
  | use u => exact (List.mem_append.1 h).imp_right fun hu => ⟨u, hu, rfl⟩
  | _ => exact .inl h

end Survey

namespace Walk

/-- The nodes that a walk of `root` can come to after so many jumps, with the contexts it
comes to them in. The functions of the table are known from the start. -/
inductive Comes (parse? : String → Option Node) (known : FunctionTable) (start : Context)
    (root : Node) : Nat → Context → Node → Prop
  | root : Comes parse? known start root 0 start root
  | child {jumps : Nat} {ctx : Context} {n c : Node} :
      Comes parse? known start root jumps ctx n → c ∈ n.children →
        Comes parse? known start root jumps ctx c
  | text {jumps : Nat} {ctx : Context} {n m : Node} {script : String} :
      Comes parse? known start root jumps ctx n → n.Runs script →
      parse? (String.ofList (unquote script.toList)) = some m →
        Comes parse? known start root (jumps + 1) (scriptContext ctx n) m
  | known {jumps : Nat} {ctx : Context} {n m : Node} {f : Function} :
      Comes parse? known start root jumps ctx n → n.calls? = some f.name → f ∈ known →
      m ∈ f.body →
        Comes parse? known start root (jumps + 1) { ctx with function := f.name } m
  | defined {jumps earlier : Nat} {ctx other : Context} {n d m : Node} {name : String} :
      Comes parse? known start root jumps ctx n → n.calls? = some name →
      Comes parse? known start root earlier other d → d.defines? = some name → m ∈ d.children →
        Comes parse? known start root (jumps + 1) { ctx with function := name } m

/-- A node that a walk of `root` can come to in a context. -/
def Reached (parse? : String → Option Node) (known : FunctionTable) (start : Context)
    (root : Node) (ctx : Context) (n : Node) : Prop :=
  ∃ jumps, Comes parse? known start root jumps ctx n

/-- What holds throughout a tree, the bodies and the texts holds of every node that a walk of
the tree comes to. -/
theorem Reached.every {p : Node → Prop} {parse? : String → Option Node} {s : State}
    {start ctx : Context} {root n : Node} (hall : Throughout p parse? s [root])
    (h : Reached parse? s.functions start root ctx n) : n.Every p := by
  obtain ⟨jumps, h⟩ := h
  induction h with
  | root => exact hall.nodes root List.mem_cons_self
  | child _ hc ih => exact (Node.every_iff.1 ih).2 _ hc
  | text _ _ hparsed => exact hall.texts _ _ hparsed
  | known _ _ hf hm => exact hall.bodies _ hf _ hm
  | defined _ _ _ _ hm _ ih => exact (Node.every_iff.1 ih).2 _ hm

/-- A text that a walk of `root` can come to in a context. -/
def RunsAt (parse? : String → Option Node) (known : FunctionTable) (start : Context)
    (root : Node) (ctx : Context) (script : String) : Prop :=
  ∃ jumps outer n, Comes parse? known start root jumps outer n ∧ n.Runs script ∧
    ctx = scriptContext outer n

/-- A name that a walk of `root` can look up. -/
def LookedUp (parse? : String → Option Node) (known : FunctionTable) (start : Context)
    (root : Node) (name : String) : Prop :=
  ∃ ctx n, Reached parse? known start root ctx n ∧ name ∈ n.lookups

/-- The records that a walk of `root` can make after so many jumps. The simple variables of
a text are recorded if the text cannot be walked. -/
inductive Found (M : String → String → Prop) (parse? : String → Option Node)
    (known : FunctionTable) (start : Context) (root : Node) : Nat → Entry → Prop
  | made {jumps : Nat} {ctx : Context} {n : Node} {e : Entry} :
      Comes parse? known start root jumps ctx n → Makes M ctx n e →
        Found M parse? known start root jumps e
  | scanned {jumps : Nat} {ctx : Context} {n : Node} {script : String} {u : Use} :
      Comes parse? known start root jumps ctx n → n.Runs script →
      u ∈ simpleUses (n.lineIn ctx) script →
        Found M parse? known start root (jumps + 1) (.use u)

theorem Makes.kept {M : String → String → Prop} {ctx : Context} {n : Node} {d e : Entry}
    (hd : Makes M ctx n d) (h : d.Kept e) : Makes M ctx n e := by
  cases h with
  | refl => exact hd
  | @assignment a b hkept =>
    obtain ⟨name, value, line, column, forCommand⟩ := b
    obtain ⟨hsame, hmark⟩ := hkept
    cases hd with
    | assignment hkind htext hmeans hparts =>
      cases hsame
      exact .assignment hkind htext hmeans hparts
    | input hkind hread hargument hmeans =>
      cases hsame
      cases forCommand with
      | false => exact .input hkind hread hargument hmeans
      | true => exact absurd (hmark rfl) Bool.false_ne_true

theorem Found.kept {M : String → String → Prop} {parse? : String → Option Node}
    {known : FunctionTable} {start : Context} {root : Node} {jumps : Nat} {d e : Entry}
    (hd : Found M parse? known start root jumps d) (h : d.Kept e) :
    Found M parse? known start root jumps e := by
  cases hd with
  | made hcomes hmakes => exact .made hcomes (hmakes.kept h)
  | scanned hcomes hruns hu =>
    cases h with
    | refl => exact .scanned hcomes hruns hu

/-- Every function is known from the start, or defined by a node that the walk comes to. -/
def Familiar (parse? : String → Option Node) (known : FunctionTable) (start : Context)
    (root : Node) (table : FunctionTable) : Prop :=
  ∀ f ∈ table, (∃ g ∈ known, g.name = f.name ∧ g.body = f.body) ∨
    ∃ ctx d, Reached parse? known start root ctx d ∧ d.defines? = some f.name ∧ d.children = f.body

namespace Familiar

variable {parse? : String → Option Node} {known table : FunctionTable} {start ctx : Context}
  {root n : Node} {name : String}

theorem refl (known : FunctionTable) : Familiar parse? known start root known :=
  fun f hf => .inl ⟨f, hf, rfl, rfl⟩

theorem define (h : Familiar parse? known start root table)
    (hn : Reached parse? known start root ctx n) (hname : n.defines? = some name) :
    Familiar parse? known start root (table.define name n.children) := by
  intro f hf
  rcases FunctionTable.mem_define hf with hf | rfl
  · exact h f hf
  · exact .inr ⟨ctx, n, hn, hname, rfl⟩

theorem enter (h : Familiar parse? known start root table) (name : String) :
    Familiar parse? known start root (table.enter name) := by
  intro f hf
  obtain ⟨g, hg, hname, hbody⟩ := FunctionTable.mem_enter hf
  rw [← hname, ← hbody]
  exact h g hg

theorem body (h : Familiar parse? known start root table)
    (hn : Reached parse? known start root ctx n) (hcalls : n.calls? = some name) {f : Function}
    (hf : table.get? name = some f) :
    ∀ m ∈ f.body, Reached parse? known start root { ctx with function := name } m := by
  intro m hm
  obtain rfl : f.name = name := by simpa using List.find?_some hf
  obtain ⟨jumps, hn⟩ := hn
  rcases h f (List.mem_of_find?_eq_some hf) with ⟨g, hg, hname, hbody⟩ |
    ⟨other, d, ⟨earlier, hd⟩, hdefines, hbody⟩
  · rw [← hname] at hcalls ⊢
    exact ⟨jumps + 1, .known hn hcalls hg (hbody ▸ hm)⟩
  · exact ⟨jumps + 1, .defined hn hcalls hd hdefines (hbody ▸ hm)⟩

end Familiar

/-! ## Invariants of all that a walk comes to -/

section Reached

variable {M : String → String → Prop} {I : State → Prop} {parse? : String → Option Node}
  {known : FunctionTable} {start : Context} {root : Node}
  (upheld : UpheldByVisits M (fun _ => True) I (Reached parse? known start root)
    (RunsAt parse? known start root))
  (hlocal : (∀ t scope, I t → I { t with scope := scope }) ∨
    ∀ ctx n, Reached parse? known start root ctx n → ¬n.IsLocal)
  (hunmark : ∀ {ctx : Context} {script : String} {t : State},
    RunsAt parse? known start root ctx script → isVerbatim script.toList = false → I t →
      I { t with assigned := unmarkFirst ctx.line t.assigned })
  (hsimple : ∀ {ctx : Context} {script : String} {t : State},
    RunsAt parse? known start root ctx script → I t →
      I { t with used := t.used ++ simpleUses ctx.line script })

include upheld hlocal

/-- Where a walk can come to a local declaration, an invariant is not about the scope. -/
theorem ensures_localDeclaration_reached {jump : Jump → Walk Unit} {ctx : Context} {n : Node}
    (hjump : ∀ j, Admitted (Reached parse? known start root) (RunsAt parse? known start root) j →
      Ensures (fun _ => True) I (jump j) anything)
    (hn : Reached parse? known start root ctx n) (hkind : n.kind = .declarationCommand)
    (hhead : n.children.head?.any (·.kind = .localKeyword) = true) :
    Ensures (fun _ => True) I (localDeclaration jump ctx n) anything := by
  rcases hlocal with hscope | hnone
  · exact upheld.ensures_localDeclaration_of_unscoped hscope (fun _ => trivial)
      (fun ctx script => hjump (.script script ctx)) hn hkind
  · exact absurd ⟨hkind, hhead⟩ (hnone ctx n hn)

include hunmark hsimple

theorem ensures_follow_reached (budget : Nat) (jump : Jump)
    (hjump : Admitted (Reached parse? known start root) (RunsAt parse? known start root) jump) :
    Ensures (fun _ => True) I (follow parse? budget jump) anything := by
  refine upheld.ensures_follow trivial (ensures_localDeclaration_reached upheld hlocal) ?_
    hunmark (fun hscript _ => hsimple hscript) budget jump hjump
  rintro _ script m ⟨jumps, ctx, n, hn, hruns, rfl⟩ hparsed
  exact ⟨jumps + 1, .text hn hruns hparsed⟩

theorem ensures_visit_reached (budget : Nat) (runs : Bool) :
    Ensures (fun _ => True) I (visit (follow parse? budget) start runs root) anything :=
  have jumps := ensures_follow_reached upheld hlocal hunmark hsimple budget
  upheld.ensures_visit jumps ⟨0, .root⟩ (ensures_localDeclaration_reached upheld hlocal jumps) runs

end Reached

/-- Where the scope satisfies `P`, written names are recorded as `M` says, and looking up
the names of a walk keeps it so. -/
structure Naming (M : String → String → Prop) (P : NameSet → Prop) (looked : String → Prop) :
    Prop where
  itself (name : String) : M name name
  meaning {scope : NameSet} {written name : String} :
    P scope → Scope.qualified? scope written = some name → M written name
  lookup {scope : NameSet} {name : String} : looked name → P scope → P (scope.insert name)

section

variable {M : String → String → Prop} {P : NameSet → Prop} {parse? : String → Option Node}
  {start : Context} {root : Node} {s : State}

/-- What is true as long as a walk of `root` from `s` goes on. -/
structure Traced (M : String → String → Prop) (P : NameSet → Prop) (parse? : String → Option Node)
    (start : Context) (root : Node) (s t : State) : Prop where
  functions : Familiar parse? s.functions start root t.functions
  scope : P t.scope
  entries : ∀ e ∈ t.toSurvey, (∃ d ∈ s.toSurvey, d.Kept e) ∨
    ∃ jumps, Found M parse? s.functions start root jumps e

theorem Traced.entries_kept {t : State} (ht : Traced M P parse? start root s t) {e : Entry}
    (h : ∃ d ∈ t.toSurvey, d.Kept e) : (∃ d ∈ s.toSurvey, d.Kept e) ∨
      ∃ jumps, Found M parse? s.functions start root jumps e := by
  obtain ⟨d, hd, hkept⟩ := h
  rcases ht.entries d hd with ⟨c, hc, hcd⟩ | ⟨jumps, hfound⟩
  · exact .inl ⟨c, hc, hcd.trans hkept⟩
  · exact .inr ⟨jumps, hfound.kept hkept⟩

theorem State.mem_records {s : State} {e : Entry} : e ∈ s.records ↔ e ∈ s.toSurvey := by
  cases e <;> exact Iff.rfl

theorem traced_upheld (naming : Naming M P (LookedUp parse? s.functions start root)) :
    UpheldByVisits M (fun _ => True) (Traced M P parse? start root s)
      (Reached parse? s.functions start root) (RunsAt parse? s.functions start root) where
  child := by
    rintro ctx n c ⟨jumps, hn⟩ hc
    exact ⟨jumps, .child hn hc⟩
  fault _ _ := trivial
  taint := by
    rintro r t u - ⟨hfunctions, hscope, hentries⟩ hrecords hsame -
    refine ⟨State.functions_eq hrecords ▸ hfunctions, hsame ▸ hscope, fun e he => hentries e ?_⟩
    rwa [← State.mem_records, hrecords, State.mem_records] at he
  lookup := by
    rintro ctx n t name ⟨jumps, hn⟩ hname ⟨hfunctions, hscope, hentries⟩
    exact ⟨hfunctions, naming.lookup ⟨ctx, n, ⟨jumps, hn⟩, hname⟩ hscope, hentries⟩
  itself := naming.itself
  meaning ht := naming.meaning ht.scope
  record := by
    rintro ctx n t e ⟨jumps, hn⟩ hmakes ⟨hfunctions, hscope, hentries⟩
    refine ⟨t.functions_add e ▸ hfunctions, hscope, fun d hd => ?_⟩
    rcases Survey.mem_add.1 hd with hd | rfl
    · exact hentries d hd
    · exact .inr ⟨jumps, .made hn hmakes⟩
  script := by
    rintro ctx n script ⟨jumps, hn⟩ hruns
    exact ⟨jumps, ctx, n, hn, hruns, rfl⟩
  define hn hname ht := { ht with functions := ht.functions.define hn hname }
  enter _ _ ht := { ht with functions := ht.functions.enter _ }
  body hn hcalls ht hf := ht.functions.body hn hcalls hf

/-- A walk adds only records that it finds. Where it can come to a local declaration, nothing
can be said about the scope. -/
theorem visit_traced (naming : Naming M P (LookedUp parse? s.functions start root))
    (hlocal : (∀ scope, P scope) ∨
      ∀ ctx n, Reached parse? s.functions start root ctx n → ¬n.IsLocal)
    (hscope : P s.scope) (budget : Nat) (runs : Bool) :
    Traced M P parse? start root s ((visit (follow parse? budget) start runs root).exec s).2 := by
  have begun : Traced M P parse? start root s s :=
    ⟨.refl s.functions, hscope, fun e he => .inl ⟨e, he, .refl e⟩⟩
  refine (ensures_visit_reached (traced_upheld naming) ?_ ?_ ?_ budget runs s begun).1
  · exact hlocal.imp_left fun hany t scope ht => ⟨ht.functions, hany scope, ht.entries⟩
  · rintro ctx script t - - ht
    exact { ht with entries := fun e he => ht.entries_kept (Survey.mem_unmark he) }
  · rintro _ script t ⟨jumps, ctx, n, hn, hruns, rfl⟩ ht
    refine { ht with entries := fun e he => ?_ }
    rcases Survey.mem_addUses he with he | ⟨u, hu, rfl⟩
    · exact ht.entries e he
    · exact .inr ⟨jumps + 1, .scanned hn hruns hu⟩

end

end Walk

end ShellAudit
