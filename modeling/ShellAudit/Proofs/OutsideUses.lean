-- SUMMARY: The uses that are recorded outside of command strings, and the nodes they are made for.
import ShellAudit.Proofs.Parallel
import ShellAudit.Proofs.Termination

/-!
# Uses outside of command strings

A use does not say whether it was recorded in a command string. To tell, the walk is done
a second time with the uses of every command string forgotten. All else that such a string
does is kept, so the two walks are the same: what is forgotten decides nothing.

What is left are the uses that the walk records where it stands in the script itself, at
line and column zero. They are made for nodes of the script, with one exception: a command
string may define a function, and the script may call it afterwards.
-/

namespace ShellAudit.Walk

/-! ## Forgetting -/

/-- Takes a step and forgets the uses that it records, however it ends. -/
def forgettingUses (step : Walk Unit) : Walk Unit := do
  let before := (← get).used
  try step
  catch fault =>
    modify fun s => { s with used := before }
    throw fault
  modify fun s => { s with used := before }

theorem exec_forgettingUses (step : Walk Unit) (s : State) :
    (forgettingUses step).exec s =
      ((step.exec s).1, { (step.exec s).2 with used := s.used }) := by
  simp only [forgettingUses, exec_bind, exec_get, exec_tryCatch]
  rcases step.exec s with ⟨_ | _, t⟩ <;> rfl

/-- Goes where `follow` goes, and forgets the uses of command strings. -/
def followOutside (parse? : String → Option Node) : Nat → Jump → Walk Unit
  | 0, _ => throw .exhausted
  | budget + 1, .body parts ctx =>
    visitAll (followOutside parse? budget) ctx .functionDefinition true parts
  | budget + 1, .script script ctx =>
    forgettingUses (follow parse? (budget + 1) (.script script ctx))

/-- Walks the text of a whole script, and forgets the uses of command strings. -/
def scriptOutside (g : Grammar) (text : String) : Walk Unit :=
  match g.parse? text with
  | some root => visit (followOutside g.parse? (g.budget root.load)) {} false root
  | none => throw .parseFailed

/-- The uses in a script that are recorded outside of command strings. -/
def outsideUses (g : Grammar) (text : String) : List Use := ((scriptOutside g text).exec {}).2.used

/-! ## The same walk -/

/-- The states are the same, except for their uses, their notes and their visits. -/
structure UsesApart (Q : List Use → List Use → Prop) (s t : State) : Prop where
  survey : ∃ used, Q s.used used ∧ t.toSurvey = { s.toSurvey with used := used }
  scope : t.scope = s.scope

theorem usesApart_parallel {Q : List Use → List Use → Prop}
    (hQ : ∀ {as bs : List Use} (u : Use), Q as bs → Q (as ++ [u]) (bs ++ [u])) :
    Parallel ⟨0, 0⟩ (fun _ => True) (fun _ => True) (UsesApart Q) where
  child _ _ := trivial
  script _ _ := trivial
  tainted := by
    rintro s t ⟨⟨used, -, hsurvey⟩, -⟩
    rw [hsurvey]
  functions := by
    rintro s t ⟨⟨used, -, hsurvey⟩, -⟩
    rw [hsurvey]
  body _ _ _ _ _ _ := trivial
  quiet := by
    rintro s t s' t' ⟨⟨used, hused, hsurvey⟩, hscope⟩ hs hscope' ht hscope'' htainted
    have hsame : s'.used = s.used := by
      show s'.records.used = s.records.used
      rw [hs]
    refine ⟨⟨used, hsame ▸ hused, ?_⟩, by rw [hscope', hscope'', hscope]⟩
    calc t'.toSurvey = { t'.records with tainted := t'.tainted } := rfl
      _ = { s'.records with used := used, tainted := s'.tainted } := by
        rw [ht, hs, htainted, State.records, State.records, hsurvey]
      _ = { s'.toSurvey with used := used } := rfl
  add := by
    rintro s t e ⟨⟨used, hused, hsurvey⟩, hscope⟩
    cases e with
    | use u =>
      refine ⟨⟨used ++ [u], hQ u hused, ?_⟩, hscope⟩
      simp only [State.add, Entry.shift_zero, Survey.add, hsurvey]
    | _ =>
      refine ⟨⟨used, hused, ?_⟩, hscope⟩
      simp only [State.add, Entry.shift_zero, Survey.add, hsurvey]
  lookup := by
    rintro n s t name - - ⟨hsurvey, hscope⟩
    exact ⟨by rw [hscope], hsurvey, by simp only [hscope]⟩
  declare := by
    rintro n s t name - - ⟨hsurvey, hscope⟩
    exact ⟨hsurvey, by simp only [hscope]⟩
  retract := by
    rintro n s t name - - ⟨hsurvey, hscope⟩
    exact ⟨by rw [hscope], hsurvey, by simp only [hscope]⟩
  define := by
    rintro n s t name - - ⟨⟨used, hused, hsurvey⟩, hscope⟩
    exact ⟨⟨used, hused, by simp only [hsurvey]⟩, hscope⟩
  enter := by
    rintro s t name ⟨⟨used, hused, hsurvey⟩, hscope⟩
    exact ⟨⟨used, hused, by simp only [hsurvey]⟩, hscope⟩

/-- Which uses are recorded already decides nothing in a jump. -/
theorem inStep_follow_usesApart (parse? : String → Option Node) (budget : Nat) (jump : Jump) :
    InStep (fun _ => False) (UsesApart fun _ _ => True) (follow parse? budget jump)
      (follow parse? budget jump) unrelated := by
  have parallel := usesApart_parallel (Q := fun _ _ => True) fun _ _ => trivial
  have hjump : Admitted (fun _ _ => True) (fun _ _ => True) jump := by
    cases jump with
    | body => exact fun _ _ => trivial
    | script => trivial
  have unmarked {line : Int} {s t : State} (hs : UsesApart (fun _ _ => True) s t) :
      UsesApart (fun _ _ => True) { s with assigned := unmarkFirst line s.assigned }
        { t with assigned := unmarkFirst line t.assigned } := by
    obtain ⟨⟨used, hused, hsurvey⟩, hscope⟩ := hs
    exact ⟨⟨used, hused, by simp only [hsurvey]⟩, hscope⟩
  simpa using parallel.inStep_follow (fun _ _ => trivial) unmarked budget jump hjump

theorem inStep_visit_of_jumps {parse? : String → Option Node} {budget : Nat}
    (h : ∀ jump, InStep (fun _ => False) (UsesApart List.Sublist)
      (followOutside parse? budget jump) (follow parse? budget jump) unrelated)
    (ctx : Context) (runs : Bool) (n : Node) :
    InStep (fun _ => False) (UsesApart List.Sublist)
      (visit (followOutside parse? budget) ctx runs n) (visit (follow parse? budget) ctx runs n)
      unrelated := by
  have parallel := usesApart_parallel (Q := List.Sublist) fun u h => h.append_right [u]
  have jumps (jump : Jump) : InStep (fun _ => False) (UsesApart List.Sublist)
      (followOutside parse? budget jump) (follow parse? budget (jump.shift ⟨0, 0⟩)) unrelated := by
    rw [Jump.shift_zero]
    exact h jump
  have visited : InStep (fun _ => False) (UsesApart List.Sublist)
      (visit (followOutside parse? budget) ctx runs n)
      (visit (follow parse? budget) (ctx.shift ⟨0, 0⟩) runs n) unrelated :=
    parallel.inStep_visit (fun jump _ => jumps jump) trivial runs
  rwa [Context.shift_zero] at visited

/-- Forgetting the uses of a jump leaves what the jump leaves otherwise. -/
theorem UsesApart.forgetting {s t s' t' : State} (h : UsesApart List.Sublist s t)
    (h' : UsesApart (fun _ _ => True) s' t') (hgrown : t.used <+: t'.used) :
    UsesApart List.Sublist { s' with used := s.used } t' := by
  obtain ⟨⟨used, hused, hsurvey⟩, -⟩ := h
  obtain ⟨⟨used', -, hsurvey'⟩, hscope⟩ := h'
  rw [hsurvey, hsurvey'] at hgrown
  exact ⟨⟨used', hused.trans hgrown.sublist, hsurvey'⟩, hscope⟩

/-- A walk that forgets the uses of command strings stays in step with the walk that keeps
them, and has fewer uses. -/
theorem inStep_followOutside (parse? : String → Option Node) (budget : Nat) (jump : Jump) :
    InStep (fun _ => False) (UsesApart List.Sublist) (followOutside parse? budget jump)
      (follow parse? budget jump) unrelated := by
  induction budget generalizing jump with
  | zero => exact .throw .exhausted
  | succ budget ih =>
    cases jump with
    | body parts ctx =>
      have all : InStep (fun _ => False) (UsesApart List.Sublist)
          (visitAll (followOutside parse? budget) ctx .functionDefinition true parts)
          (visitAll (follow parse? budget) (ctx.shift ⟨0, 0⟩) .functionDefinition true parts)
          unrelated := by
        refine Parallel.inStep_visitAll_of_visit fun n _ runs => ?_
        rw [Context.shift_zero]
        exact inStep_visit_of_jumps ih ctx runs n
      rwa [Context.shift_zero] at all
    | script script ctx =>
      -- Both walks make the same jump. What it adds to the uses is forgotten by the first, and
      -- stands behind the earlier uses of the second.
      intro s t hs
      have hany : UsesApart (fun _ _ => True) s t :=
        ⟨hs.survey.imp fun _ h => ⟨trivial, h.2⟩, hs.scope⟩
      have ends := inStep_follow_usesApart parse? (budget + 1) (.script script ctx) s t hany
      have hgrown := ((follow_extending parse? (budget + 1) (.script script ctx)).extending t).used
      rw [followOutside, exec_forgettingUses]
      revert ends hgrown
      generalize (follow parse? (budget + 1) (.script script ctx)).exec s = x
      generalize (follow parse? (budget + 1) (.script script ctx)).exec t = y
      intro ends hgrown
      cases ends with
      | ok _ h => exact .ok trivial (hs.forgetting h hgrown)
      | fault h => exact .fault (hs.forgetting h hgrown)
      | given hgave => exact hgave.elim

/-- Except for uses, a walk that forgets the uses of command strings leaves what the walk of
the script leaves, and ends in the same way. Of the uses it leaves some, in their order. -/
theorem scriptOutside_same (g : Grammar) (text : String) :
    ((script g text).exec {}).1 = ((scriptOutside g text).exec {}).1 ∧
      UsesApart List.Sublist ((scriptOutside g text).exec {}).2 ((script g text).exec {}).2 := by
  rw [exec_script, scriptOutside, scriptWithin]
  have begun : UsesApart List.Sublist {} {} := ⟨⟨[], .refl [], rfl⟩, rfl⟩
  cases g.parse? text with
  | none => exact ⟨rfl, begun⟩
  | some root =>
    exact (inStep_visit_of_jumps (inStep_followOutside g.parse? _) {} false root {} {}
      begun).same fun _ h => h.elim

/-- What is recorded outside of command strings is recorded. -/
theorem outsideUses_sublist (g : Grammar) (text : String) :
    (outsideUses g text).Sublist ((script g text).exec {}).2.used := by
  obtain ⟨⟨used, hused, hsurvey⟩, -⟩ := (scriptOutside_same g text).2
  rw [hsurvey]
  exact hused

/-! ## The nodes that uses are made for -/

/-- The nodes of the texts that a script tells shells to run, itself or in such a text. -/
inductive InText (parse? : String → Option Node) (root : Node) : Node → Prop
  | ofScript {n m k : Node} {script : String} : root.Below n → n.Runs script →
      parse? (String.ofList (unquote script.toList)) = some m → m.Below k → InText parse? root k
  | ofText {n m k : Node} {script : String} : InText parse? root n → n.Runs script →
      parse? (String.ofList (unquote script.toList)) = some m → m.Below k → InText parse? root k

theorem InText.step {parse? : String → Option Node} {root n c : Node} (h : InText parse? root n)
    (hc : c ∈ n.children) : InText parse? root c := by
  cases h with
  | ofScript hn hruns hparsed hbelow => exact .ofScript hn hruns hparsed (hbelow.step hc)
  | ofText hn hruns hparsed hbelow => exact .ofText hn hruns hparsed (hbelow.step hc)

theorem InText.downward {parse? : String → Option Node} {root n m : Node} (h : InText parse? root n)
    (hm : n.Below m) : InText parse? root m := by
  induction hm with
  | self => exact h
  | child hc _ ih => exact ih (h.step hc)

section

variable {parse? : String → Option Node} {root : Node}

/-- A node of the script or of a text that is run. -/
def Stands (parse? : String → Option Node) (root n : Node) : Prop :=
  root.Below n ∨ InText parse? root n

theorem Stands.step {n c : Node} (h : Stands parse? root n) (hc : c ∈ n.children) :
    Stands parse? root c :=
  h.imp (fun h => h.step hc) fun h => h.step hc

theorem Stands.text {n m : Node} {script : String} (h : Stands parse? root n)
    (hruns : n.Runs script) (hparsed : parse? (String.ofList (unquote script.toList)) = some m) :
    Stands parse? root m := by
  rcases h with h | h
  · exact .inr (.ofScript h hruns hparsed (.self m))
  · exact .inr (.ofText h hruns hparsed (.self m))

/-- The uses are as asked for, and the functions are defined by nodes that stand somewhere. -/
structure Grounded (parse? : String → Option Node) (root : Node) (U : Use → Prop) (s : State) :
    Prop where
  used : ∀ u ∈ s.used, U u
  functions : ∀ f ∈ s.functions,
    ∃ d, Stands parse? root d ∧ d.defines? = some f.name ∧ d.children = f.body

/-- A walk of nodes that stand somewhere may go where `N` says, and records uses as `U` says. -/
structure Roams (parse? : String → Option Node) (root : Node) (U : Use → Prop)
    (N : Context → Node → Prop) : Prop where
  stands {ctx : Context} {n : Node} : N ctx n → Stands parse? root n
  child {ctx : Context} {n c : Node} : N ctx n → c ∈ n.children → N ctx c
  body {ctx : Context} {n d m : Node} {name : String} : N ctx n → Stands parse? root d →
    d.defines? = some name → m ∈ d.children → N { ctx with function := name } m
  use {ctx : Context} {n : Node} {written : String} : N ctx n → n.kind.isExpansion = true →
    n.text = some written → U ⟨written, n.lineIn ctx, n.columnIn ctx⟩

theorem Roams.upheld {U : Use → Prop} {N : Context → Node → Prop}
    (roams : Roams parse? root U N) :
    UpheldByVisits (fun _ _ => True) (fun _ => True) (Grounded parse? root U) N
      (fun _ script => ∃ n, Stands parse? root n ∧ n.Runs script) where
  child := roams.child
  fault _ _ := trivial
  taint := by
    rintro s t u - ⟨hused, hfunctions⟩ hrecords - -
    refine ⟨?_, State.functions_eq hrecords ▸ hfunctions⟩
    show ∀ use ∈ u.records.used, U use
    rw [hrecords]
    exact hused
  lookup _ _ hs := ⟨hs.used, hs.functions⟩
  itself _ := trivial
  meaning _ _ := trivial
  record := by
    rintro ctx n s e hn hmakes ⟨hused, hfunctions⟩
    refine ⟨?_, s.functions_add e ▸ hfunctions⟩
    cases hmakes with
    | use hkind htext =>
      intro u hu
      rcases List.mem_append.1 hu with hu | hu
      · exact hused u hu
      · rw [List.mem_singleton.1 hu]
        exact roams.use hn hkind htext
    | _ => exact hused
  script hn hruns := ⟨_, roams.stands hn, hruns⟩
  define := by
    rintro ctx n s name hn hname ⟨hused, hfunctions⟩
    refine ⟨hused, fun f hf => ?_⟩
    rcases FunctionTable.mem_define hf with hf | rfl
    · exact hfunctions f hf
    · exact ⟨n, roams.stands hn, hname, rfl⟩
  enter := by
    rintro ctx n s name - - ⟨hused, hfunctions⟩
    refine ⟨hused, fun f hf => ?_⟩
    obtain ⟨g, hg, hname, hbody⟩ := FunctionTable.mem_enter hf
    rw [← hname, ← hbody]
    exact hfunctions g hg
  body := by
    rintro ctx n s name f hn - ⟨-, hfunctions⟩ hf m hm
    obtain ⟨d, hd, hdefines, hbody⟩ := hfunctions f (List.mem_of_find?_eq_some hf)
    obtain rfl : f.name = name := by simpa using List.find?_some hf
    exact roams.body hn hd hdefines (hbody ▸ hm)

theorem Roams.ensures_localDeclaration {U : Use → Prop} {N : Context → Node → Prop}
    (roams : Roams parse? root U N) {jump : Jump → Walk Unit}
    (hjump : ∀ j, Admitted N (fun _ script => ∃ n, Stands parse? root n ∧ n.Runs script) j →
      Ensures (fun _ => True) (Grounded parse? root U) (jump j) anything)
    {ctx : Context} {n : Node} (hn : N ctx n) (hkind : n.kind = .declarationCommand) :
    Ensures (fun _ => True) (Grounded parse? root U) (localDeclaration jump ctx n) anything :=
  roams.upheld.ensures_localDeclaration_of_unscoped (fun _ _ hs => ⟨hs.used, hs.functions⟩)
    (fun _ => trivial) (fun ctx script => hjump (.script script ctx)) hn hkind

/-- A text defines functions in its own tree, whatever uses it records. -/
theorem ensures_follow_grounded (budget : Nat) (ctx : Context) {n : Node} {script : String}
    (hn : Stands parse? root n) (hruns : n.Runs script) :
    Ensures (fun _ => True) (Grounded parse? root fun _ => True)
      (follow parse? budget (.script script ctx)) anything := by
  have roams : Roams parse? root (fun _ => True) fun _ n => Stands parse? root n :=
    ⟨id, .step, fun _ hd _ hm => hd.step hm, fun _ _ _ => trivial⟩
  refine roams.upheld.ensures_follow trivial
    (fun hjump hn hkind _ => roams.ensures_localDeclaration hjump hn hkind) ?_ ?_ ?_ budget
    (.script script ctx) ⟨n, hn, hruns⟩
  · rintro _ script m ⟨n, hn, hruns⟩ hparsed
    exact hn.text hruns hparsed
  · exact fun _ _ hs => ⟨hs.used, hs.functions⟩
  · exact fun _ _ hs => ⟨fun _ _ => trivial, hs.functions⟩

/-- A node of a function that is defined in a text that is run. -/
def InDefinition (parse? : String → Option Node) (root n : Node) : Prop :=
  ∃ d name, InText parse? root d ∧ d.defines? = some name ∧ d.Below n

/-- Where no command runs a text, there are no such nodes. -/
theorem not_inDefinition (h : root.Every Node.RunsNoText) {n : Node} :
    ¬InDefinition parse? root n := by
  have htext {d : Node} : ¬InText parse? root d := by
    intro hd
    induction hd with
    | ofScript hbelow hruns =>
      have hnone := h.below hbelow hruns.command hruns.shell
      exact absurd (hnone.symm.trans hruns.argument) (by simp)
    | ofText _ _ _ _ ih => exact ih
  rintro ⟨d, name, hd, -⟩
  exact htext hd

/-- The use is recorded for an expansion, at the position that the tree gives it. -/
structure MadeFor (n : Node) (u : Use) : Prop where
  kind : n.kind.isExpansion = true
  text : n.text = some u.name
  line : u.line = n.row
  column : u.column = n.column

/-- Where a walk stands in the script itself, or in a function that it calls there. -/
def StandsOutside (parse? : String → Option Node) (root : Node) (ctx : Context) (n : Node) : Prop :=
  ctx.line = 0 ∧ ctx.column = 0 ∧ (root.Below n ∨ InDefinition parse? root n)

theorem roams_outside : Roams parse? root
    (fun u => ∃ n, MadeFor n u ∧ (root.Below n ∨ InDefinition parse? root n))
    (StandsOutside parse? root) where
  stands := by
    rintro ctx n ⟨-, -, hn | ⟨d, name, hd, -, hbelow⟩⟩
    · exact .inl hn
    · exact .inr (hd.downward hbelow)
  child := by
    rintro ctx n c ⟨hline, hcolumn, hn⟩ hc
    refine ⟨hline, hcolumn, hn.imp (fun h => h.step hc) ?_⟩
    rintro ⟨d, name, hd, hname, hbelow⟩
    exact ⟨d, name, hd, hname, hbelow.step hc⟩
  body := by
    rintro ctx n d m name ⟨hline, hcolumn, -⟩ hd hname hm
    refine ⟨hline, hcolumn, ?_⟩
    rcases hd with hd | hd
    · exact .inl (hd.step hm)
    · exact .inr ⟨d, name, hd, hname, .child hm (.self m)⟩
  use := by
    rintro ctx n written ⟨hline, hcolumn, hn⟩ hkind htext
    refine ⟨n, ⟨hkind, htext, ?_, ?_⟩, hn⟩
    · simp [Node.lineIn, hline]
    · simp [Node.columnIn, hcolumn]

theorem ensures_followOutside (budget : Nat) (jump : Jump)
    (hjump : Admitted (StandsOutside parse? root)
      (fun _ script => ∃ n, Stands parse? root n ∧ n.Runs script) jump) :
    Ensures (fun _ => True)
      (Grounded parse? root fun u => ∃ n, MadeFor n u ∧ (root.Below n ∨ InDefinition parse? root n))
      (followOutside parse? budget jump) anything := by
  induction budget generalizing jump with
  | zero => exact .throw trivial
  | succ budget ih =>
    cases jump with
    | body parts ctx =>
      exact UpheldByVisits.ensures_visitAll_of_visit fun n hn runs =>
        roams_outside.upheld.ensures_visit ih (hjump n hn)
          (fun hn hkind _ => roams_outside.ensures_localDeclaration ih hn hkind) runs
    | script script ctx =>
      -- Of the string, only the functions that it defines are left.
      obtain ⟨n, hn, hruns⟩ := hjump
      intro s hs
      obtain ⟨hleft, hresult⟩ := ensures_follow_grounded (budget + 1) ctx hn hruns s
        ⟨fun _ _ => trivial, hs.functions⟩
      rw [followOutside, exec_forgettingUses]
      exact ⟨⟨hs.used, hleft.functions⟩, hresult⟩

/-- Every use that is recorded outside of command strings is made for an expansion of the
script, or of a function that a command string has defined. -/
theorem outsideUses_madeFor {g : Grammar} {text : String} {root : Node}
    (hroot : g.parse? text = some root) {u : Use} (hu : u ∈ outsideUses g text) :
    ∃ n, MadeFor n u ∧ (root.Below n ∨ InDefinition g.parse? root n) := by
  have begun : StandsOutside g.parse? root {} root := ⟨rfl, rfl, .inl (.self root)⟩
  have jumps := @ensures_followOutside g.parse? root (g.budget root.load)
  have visited := roams_outside.upheld.ensures_visit jumps begun
    (fun hn hkind _ => roams_outside.ensures_localDeclaration jumps hn hkind)
    false {} ⟨fun _ h => absurd h List.not_mem_nil, fun _ h => absurd h List.not_mem_nil⟩
  rw [outsideUses, scriptOutside, hroot] at hu
  exact visited.1.used u hu

end

end ShellAudit.Walk
