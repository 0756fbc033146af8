-- SUMMARY: Which mark comes off an assignment before a command when a shell is told to run a string.
import ShellAudit.Proofs.BracedNames
import ShellAudit.Proofs.CommandKeys

/-!
# Marks of commands

An assignment before a command is marked as being for this command. A string that the outer shell
expands does not see it, so when a shell is told to run such a string, a mark comes off: that of
the first marked assignment in the line of the command. Whose assignment this is plays no part. It
is the command's own if that has just one and every command before it in the line has lost its
marks. The further assignments of the command stay marked, and a command before it loses a mark
instead.
-/

namespace ShellAudit

namespace Walk

/-! ## The first mark of a line -/

/-- The assignment at the place is the first one of the line that is marked. -/
structure FirstMarked (line : Int) (as : List Assignment) (i : Nat) : Prop where
  marked : ∃ a, as[i]? = some a ∧ a.line = line ∧ a.forCommand = true
  first {j : Nat} {b : Assignment} :
    j < i → as[j]? = some b → ¬(b.line = line ∧ b.forCommand = true)

section

variable {line : Int} {a : Assignment} {as : List Assignment} {i : Nat}

theorem firstMarked_cons_zero :
    FirstMarked line (a :: as) 0 ↔ a.line = line ∧ a.forCommand = true := by
  constructor
  · rintro ⟨⟨b, hb, hmarked⟩, -⟩
    cases hb
    exact hmarked
  · intro hmarked
    exact ⟨⟨a, rfl, hmarked⟩, fun hj => absurd hj (Nat.not_lt_zero _)⟩

theorem firstMarked_cons_succ :
    FirstMarked line (a :: as) (i + 1) ↔
      ¬(a.line = line ∧ a.forCommand = true) ∧ FirstMarked line as i := by
  constructor
  · rintro ⟨hmarked, hfirst⟩
    exact ⟨hfirst (Nat.succ_pos i) rfl, hmarked, fun hj hb => hfirst (Nat.succ_lt_succ hj) hb⟩
  · rintro ⟨hhead, hmarked, hfirst⟩
    refine ⟨hmarked, fun {j b} hj hb => ?_⟩
    cases j with
    | zero =>
      cases hb
      exact hhead
    | succ j => exact hfirst (Nat.lt_of_succ_lt_succ hj) hb

theorem FirstMarked.unique {j : Nat} (hi : FirstMarked line as i) (hj : FirstMarked line as j) :
    i = j := by
  obtain ⟨a, ha, hmarked⟩ := hi.marked
  obtain ⟨b, hb, hmarked'⟩ := hj.marked
  rcases Nat.lt_trichotomy i j with hlt | heq | hgt
  · exact absurd hmarked (hj.first hlt ha)
  · exact heq
  · exact absurd hmarked' (hi.first hgt hb)

/-- Taking off a mark leaves every assignment but the first marked one of the line alone. -/
theorem getElem?_unmarkFirst_of_ne (h : ¬FirstMarked line as i) :
    (unmarkFirst line as)[i]? = as[i]? := by
  induction as generalizing i with
  | nil => rfl
  | cons a as ih =>
    unfold unmarkFirst
    split
    · rename_i hhead
      cases i with
      | zero => exact absurd (firstMarked_cons_zero.2 hhead) h
      | succ i => rfl
    · rename_i hhead
      cases i with
      | zero => rfl
      | succ i => exact ih fun hfirst => h (firstMarked_cons_succ.2 ⟨hhead, hfirst⟩)

theorem FirstMarked.getElem?_unmarkFirst (h : FirstMarked line as i) (ha : as[i]? = some a) :
    (unmarkFirst line as)[i]? = some { a with forCommand := false } := by
  induction as generalizing i with
  | nil => cases ha
  | cons b bs ih =>
    unfold unmarkFirst
    cases i with
    | zero =>
      cases ha
      rw [if_pos (firstMarked_cons_zero.1 h)]
      rfl
    | succ i =>
      obtain ⟨hhead, htail⟩ := firstMarked_cons_succ.1 h
      rw [if_neg hhead]
      exact ih htail ha

theorem length_unmarkFirst (line : Int) (as : List Assignment) :
    (unmarkFirst line as).length = as.length := by
  induction as with
  | nil => rfl
  | cons a as ih =>
    unfold unmarkFirst
    split
    · rfl
    · exact congrArg Nat.succ ih

/-- The assignment at the place is marked. -/
def MarkedAt (as : List Assignment) (i : Nat) : Prop :=
  ∃ a, as[i]? = some a ∧ a.forCommand = true

section

variable {after : List Assignment} (hafter : unmarkFirst line as <+: after)

include hafter

theorem getElem?_of_unmarkFirst (hi : i < as.length) :
    after[i]? = (unmarkFirst line as)[i]? := by
  rw [← length_unmarkFirst line as] at hi
  rw [List.prefix_iff_getElem?.1 hafter i hi, List.getElem?_eq_getElem hi]

theorem MarkedAt.of_unmarkFirst (h : MarkedAt as i) (hother : ¬FirstMarked line as i) :
    MarkedAt after i := by
  obtain ⟨a, ha, hmark⟩ := h
  obtain ⟨hi, -⟩ := List.getElem?_eq_some_iff.1 ha
  exact ⟨a, by rw [getElem?_of_unmarkFirst hafter hi, getElem?_unmarkFirst_of_ne hother, ha], hmark⟩

theorem FirstMarked.not_markedAt (h : FirstMarked line as i) : ¬MarkedAt after i := by
  rintro ⟨b, hb, hmark⟩
  obtain ⟨a, ha, -⟩ := h.marked
  obtain ⟨hi, -⟩ := List.getElem?_eq_some_iff.1 ha
  rw [getElem?_of_unmarkFirst hafter hi, h.getElem?_unmarkFirst ha, Option.some.injEq] at hb
  rw [← hb] at hmark
  exact absurd hmark Bool.false_ne_true

/-- Of some marked assignments every mark comes off, and no other one, exactly if there is only one
of them and it is the first marked one of the line, or neither of the two is there. -/
theorem unmarkFirst_fits_iff {own : Nat → Prop} (hown : ∀ i, own i → MarkedAt as i) :
    ((∀ i, own i → ¬MarkedAt after i) ∧ ∀ i < as.length, ¬own i → after[i]? = as[i]?) ↔
      ∀ i, own i ↔ FirstMarked line as i := by
  constructor
  · rintro ⟨hunmarked, hothers⟩ i
    constructor
    · intro hi
      by_contra hother
      exact hunmarked i hi ((hown i hi).of_unmarkFirst hafter hother)
    · intro hfirst
      obtain ⟨a, ha, -, hmark⟩ := hfirst.marked
      obtain ⟨hi, -⟩ := List.getElem?_eq_some_iff.1 ha
      by_contra hother
      exact hfirst.not_markedAt hafter ⟨a, (hothers i hi hother).trans ha, hmark⟩
  · intro hfits
    refine ⟨fun i hi => ((hfits i).1 hi).not_markedAt hafter, fun i hi hother => ?_⟩
    rw [getElem?_of_unmarkFirst hafter hi,
      getElem?_unmarkFirst_of_ne fun hfirst => hother ((hfits i).2 hfirst)]

/-- Of two marked assignments, one stays marked. -/
theorem markedAt_or_markedAt {j : Nat} (hi : MarkedAt as i) (hj : MarkedAt as j) (hne : i ≠ j) :
    MarkedAt after i ∨ MarkedAt after j := by
  by_cases hfirst : FirstMarked line as i
  · exact .inr (hj.of_unmarkFirst hafter fun hfirst' => hne (hfirst.unique hfirst'))
  · exact .inl (hi.of_unmarkFirst hafter hfirst)

end

end

/-! ## Walks that take off no mark -/

/-- Every text that a walk of `root` can run is verbatim. -/
def RunsVerbatim (parse? : String → Option Node) (known : FunctionTable) (start : Context)
    (root : Node) : Prop :=
  ∀ ctx script, RunsAt parse? known start root ctx script → isVerbatim script.toList = true

theorem runsVerbatim_of_throughout {parse? : String → Option Node} {s : State} {root : Node}
    (h : Throughout Node.RunsNoText parse? s [root]) (start : Context) :
    RunsVerbatim parse? s.functions start root := by
  rintro _ script ⟨jumps, ctx, n, hn, hruns, rfl⟩
  have hnone := (Node.every_iff.1 (Reached.every h ⟨jumps, hn⟩)).1 hruns.command hruns.shell
  exact absurd (hnone.symm.trans hruns.argument) (by simp)

/-- The assignments are still there as they were, and the functions are those of a walk of
`root`. -/
structure Retains (parse? : String → Option Node) (known : FunctionTable) (start : Context)
    (root : Node) (as : List Assignment) (s : State) : Prop where
  functions : Familiar parse? known start root s.functions
  assigned : as <+: s.assigned

section

variable {parse? : String → Option Node} {known : FunctionTable} {start ctx : Context}
  {root n : Node} {as : List Assignment}

theorem retains_upheld (as : List Assignment) :
    UpheldByVisits (fun _ _ => True) (fun _ => True) (Retains parse? known start root as)
      (Reached parse? known start root) (RunsAt parse? known start root) where
  child := by
    rintro ctx n c ⟨jumps, hn⟩ hc
    exact ⟨jumps, .child hn hc⟩
  fault _ _ := trivial
  taint := by
    rintro s t u - ⟨hfunctions, hassigned⟩ hrecords - -
    refine ⟨State.functions_eq hrecords ▸ hfunctions, ?_⟩
    show as <+: u.records.assigned
    rw [hrecords]
    exact hassigned
  lookup _ _ hs := ⟨hs.functions, hs.assigned⟩
  itself _ := trivial
  meaning _ _ := trivial
  record := by
    rintro ctx n s e - - ⟨hfunctions, hassigned⟩
    refine ⟨s.functions_add e ▸ hfunctions, ?_⟩
    cases e with
    | assignment a => exact hassigned.trans (List.prefix_append _ _)
    | _ => exact hassigned
  script := by
    rintro ctx n script ⟨jumps, hn⟩ hruns
    exact ⟨jumps, ctx, n, hn, hruns, rfl⟩
  define hn hname hs := { hs with functions := hs.functions.define hn hname }
  enter _ _ hs := { hs with functions := hs.functions.enter _ }
  body hn hcalls hs hf := hs.functions.body hn hcalls hf

/-- Where only verbatim texts are run, no jump takes off a mark. -/
theorem retains_follow (hverbatim : RunsVerbatim parse? known start root) (budget : Nat)
    (jump : Jump)
    (hjump : Admitted (Reached parse? known start root) (RunsAt parse? known start root) jump) :
    Ensures (fun _ => True) (Retains parse? known start root as) (follow parse? budget jump)
      anything := by
  refine ensures_follow_reached (retains_upheld as) (.inl ?_) ?_ ?_ budget jump hjump
  · exact fun _ _ hs => ⟨hs.functions, hs.assigned⟩
  · intro ctx script s hscript hopen
    exact absurd (hverbatim ctx script hscript) (Bool.eq_false_iff.1 hopen)
  · exact fun _ hs => ⟨hs.functions, hs.assigned⟩

theorem retains_visit (hverbatim : RunsVerbatim parse? known start root) (budget : Nat)
    (runs : Bool) :
    Ensures (fun _ => True) (Retains parse? known start root as)
      (visit (follow parse? budget) start runs root) anything :=
  (retains_upheld as).ensures_visit (retains_follow hverbatim budget) ⟨0, .root⟩
    (ensures_localDeclaration_reached (retains_upheld as)
      (.inl fun _ _ hs => ⟨hs.functions, hs.assigned⟩) (retains_follow hverbatim budget)) runs

theorem retains_draftChildren (hverbatim : RunsVerbatim parse? known start root) (budget : Nat)
    (draft : Draft) {ms : List Node} (hms : ∀ m ∈ ms, Reached parse? known start root ctx m) :
    Ensures (fun _ => True) (Retains parse? known start root as)
      (draftChildren (follow parse? budget) ctx draft ms) anything := by
  have upheld := @retains_upheld parse? known start root as
  refine upheld.ensures_draftChildren_of_parts draft hms
    (fun _ _ _ _ _ => .modify fun _ hs => ⟨hs.functions, hs.assigned⟩) fun m hm => ?_
  exact (upheld.ensures_parts_and_children
    (fun ctx script => retains_follow hverbatim budget (.script script ctx)) (hms m hm)).2

theorem retains_readPreceding (hverbatim : RunsVerbatim parse? known start root) (budget : Nat)
    (hn : Reached parse? known start root ctx n) (hkind : n.kind = .variableAssignment) :
    Ensures (fun _ => True) (Retains parse? known start root as)
      (readPreceding (follow parse? budget) ctx n) anything := by
  have upheld := @retains_upheld parse? known start root as
  refine .bind (upheld.ensures_text hn) fun written hwritten => ?_
  have htarget : String.ofList (Text.beforeEquals written.toList) ∈ n.lookups := by
    simp [Node.lookups, hkind, hwritten]
  have assigned := upheld.ensures_assigned
    (fun ctx script => retains_follow hverbatim budget (.script script ctx)) hn hkind
  exact .bind (upheld.ensures_resolve hn htarget) fun _ _ =>
    .bind assigned fun _ _ => .pure trivial

end

/-! ## The command's own assignments -/

/-- The children of a node, without what the node itself does. -/
def bundle (n : Node) : Node := { n with kind := .program }

/-- When the children of a command are read from `s`, the assignment `c` among them is recorded as
`a`, at the place `i`. -/
def RecordsAt (jump : Jump → Walk Unit) (ctx : Context) (children : List Node) (s : State)
    (c : Node) (a : Assignment) (i : Nat) : Prop :=
  c.kind = .variableAssignment ∧ ∃ before behind draft name value u v,
    children = before ++ c :: behind ∧
    (draftChildren jump ctx {} before).exec s = (.ok draft, u) ∧
    (readPreceding jump ctx c).exec u = (.ok (name, value), v) ∧
    a = preceding ctx c name value ∧ i = v.assigned.length

theorem RecordsAt.eq_preceding {jump : Jump → Walk Unit} {ctx : Context} {children : List Node}
    {s : State} {c : Node} {a : Assignment} {i : Nat} (h : RecordsAt jump ctx children s c a i) :
    ∃ name value, a = preceding ctx c name value := by
  obtain ⟨-, -, -, -, name, value, -, -, -, -, -, ha, -⟩ := h
  exact ⟨name, value, ha⟩

theorem draftChildren_append (jump : Jump → Walk Unit) (ctx : Context) (draft : Draft)
    (ms ns : List Node) :
    draftChildren jump ctx draft (ms ++ ns) =
      draftChildren jump ctx draft ms >>= fun draft => draftChildren jump ctx draft ns := by
  induction ms generalizing draft with
  | nil => rfl
  | cons m ms ih =>
    rw [List.cons_append]
    by_cases hassign : m.kind = .variableAssignment
    · simp only [draftChildren_cons_assignment hassign, ih, bind_assoc]
    · by_cases hname : m.kind = .commandName
      · simp only [draftChildren_cons_name hname, ih, bind_assoc]
      · simp only [draftChildren_cons_other hassign hname, ih]
        split
        · simp only [bind_assoc]
        · rfl

section

variable {jump : Jump → Walk Unit} {ctx : Context} {s t : State} {draft : Draft}

/-- Every assignment before a command has its record. -/
theorem exists_recordsAt {n c : Node} (hc : c ∈ n.children) (hkind : c.kind = .variableAssignment)
    (hread : (draftChildren jump ctx {} n.children).exec s = (.ok draft, t)) :
    ∃ a i, RecordsAt jump ctx n.children s c a i := by
  obtain ⟨before, behind, hchildren⟩ := List.append_of_mem hc
  rw [hchildren, draftChildren_append, exec_bind] at hread
  rcases hbefore : (draftChildren jump ctx {} before).exec s with ⟨fault | drafted, u⟩
  · rw [hbefore] at hread
    cases hread
  rw [hbefore] at hread
  rcases hown : (readPreceding jump ctx c).exec u with ⟨fault | ⟨name, value⟩, v⟩
  · simp only [draftChildren_cons_preceding hkind, exec_bind, hown] at hread
    cases hread
  · exact ⟨_, _, hkind, before, behind, drafted, name, value, u, v, hchildren, hbefore, hown, rfl,
      rfl⟩

end

section

variable {parse? : String → Option Node} {budget : Nat} {ctx : Context} {n : Node} {s t : State}
  {draft : Draft}

/-- Where the values of a command's assignments run verbatim texts only, all earlier assignments
stay as they are, and those of the command are added to them with their marks. -/
theorem retained_by_reading (hvalues : RunsVerbatim parse? s.functions ctx (bundle n))
    (hread : (draftChildren (follow parse? budget) ctx {} n.children).exec s = (.ok draft, t)) :
    s.assigned <+: t.assigned ∧ ∀ c a i, RecordsAt (follow parse? budget) ctx n.children s c a i →
      s.assigned.length ≤ i ∧ t.assigned[i]? = some a := by
  have hchild {c : Node} (hc : c ∈ n.children) :
      Reached parse? s.functions ctx (bundle n) ctx c := ⟨0, .child .root hc⟩
  have begun : Retains parse? s.functions ctx (bundle n) s.assigned s :=
    ⟨.refl s.functions, List.prefix_refl _⟩
  have ht := (retains_draftChildren hvalues budget {} fun c => @hchild c).kept begun hread
  refine ⟨ht.assigned, fun c a i hrecords => ?_⟩
  obtain ⟨hkind, before, behind, draft', name, value, u, v, hchildren, hbefore, hown, rfl, rfl⟩ :=
    hrecords
  have hmem {m : Node} (hm : m ∈ before ∨ m ∈ c :: behind) :
      Reached parse? s.functions ctx (bundle n) ctx m := by
    refine hchild ?_
    rw [hchildren]
    exact List.mem_append.2 hm
  have hu := (retains_draftChildren hvalues budget {} fun m hm => hmem (.inl hm)).kept begun hbefore
  have hv := (retains_readPreceding hvalues budget (hmem (.inr List.mem_cons_self)) hkind).kept hu
    hown
  refine ⟨hv.assigned.length_le, ?_⟩
  -- From here on the record is a part of what is retained.
  rw [hchildren, draftChildren_append, exec_bind, hbefore] at hread
  obtain ⟨notes, hstep⟩ := exec_draftChildren_preceding hkind hown draft' behind
  let as := v.assigned ++ [preceding ctx c name value]
  have recorded : Retains parse? s.functions ctx (bundle n) as
      { v with
        assigned := as
        tainted := v.tainted.assign (commandKey name c.row) value
        notes := notes } := ⟨hv.functions, List.prefix_refl _⟩
  obtain ⟨-, added, hadded⟩ := (retains_draftChildren hvalues budget draft' fun m hm =>
    hmem (.inr (List.mem_cons_of_mem c hm))).kept recorded (hstep.symm.trans hread)
  rw [← hadded]
  simp [as]

end

/-! ## The string -/

theorem Draft.arguments_read_ne_empty {draft : Draft} (h : ∀ a ∈ draft.arguments, a ≠ "")
    (nodes : List Node) : ∀ a ∈ (draft.read nodes).arguments, a ≠ "" := by
  induction nodes generalizing draft with
  | nil => exact h
  | cons n ns ih =>
    refine ih fun a ha => ?_
    unfold Draft.add at ha
    split at ha
    · exact h a ha
    · split at ha
      · rcases List.mem_append.1 ha with ha | ha
        · exact h a ha
        · obtain ⟨-, hne⟩ := Option.filter_eq_some_iff.1 (Option.mem_toList.1 ha)
          exact of_decide_eq_true hne
      · exact h a ha

theorem scriptArgument?_mem {arguments : List String} {script : String}
    (h : scriptArgument? arguments = some script) : script ∈ arguments := by
  unfold scriptArgument? at h
  split at h
  · cases h
    simp
  · cases h

theorem script_ne_empty {n : Node} {script : String} (h : n.Runs script) : script ≠ "" :=
  @Draft.arguments_read_ne_empty {} (fun _ ha => absurd ha List.not_mem_nil) n.children script
    (scriptArgument?_mem h.argument)

section

variable {parse? : String → Option Node} {budget : Nat} {ctx : Context} {n : Node} {s t : State}
  {draft : Draft} {script : String}

/-- A command that tells a shell to run a text is recorded, and then the text is walked. -/
theorem exec_command_of_runs {jump : Jump → Walk Unit} (hruns : n.Runs script)
    (hread : (draftChildren jump ctx {} n.children).exec s = (.ok draft, t))
    (hname : Scope.qualified? t.scope n.draft.name = none) :
    ∃ scope commands, ((command jump ctx n).exec s).2 =
      ((jump (.script script (scriptContext ctx n))).exec
        { t with scope := scope, commands := commands }).2 := by
  obtain rfl : draft = n.draft := draftChildren_returns jump ctx {} n.children s draft t hread
  have hnamed : n.draft.name ≠ "" := by
    intro hempty
    exact absurd (hempty ▸ hruns.shell) (by decide)
  have hother : n.draft.name ≠ "read" := by
    intro hinput
    exact absurd (hinput ▸ hruns.shell) (by decide)
  let c : Command := ⟨n.draft.name, n.draft.arguments, n.lineIn ctx, ctx.column + n.draft.column⟩
  have hnested : runNested jump ctx c = jump (.script script (scriptContext ctx n)) :=
    runNested_eq hruns.shell hruns.argument
  obtain ⟨scope, hresolve⟩ := exec_resolve n.draft.name t
  rw [hname, Option.getD_none] at hresolve
  refine ⟨scope, t.commands ++ [c], ?_⟩
  rw [command, exec_bind, hread]
  simp only [finish, if_neg hnamed, record, bind_assoc]
  rw [exec_bind, hresolve]
  simp only [Walk.when, if_neg hother]
  show ((runNested jump ctx c >>= fun _ => pure (some c)).exec
    { t with scope := scope, commands := t.commands ++ [c] }).2 = _
  rw [hnested, exec_bind]
  rcases (jump (.script script (scriptContext ctx n))).exec _ with ⟨_ | _, u⟩ <;> rfl

/-- What is assigned when a text has been run is what its walk leaves, and what it starts from if
the text cannot be walked. -/
theorem assigned_follow_script {P : List Assignment → Prop} {inner : Context} (hne : script ≠ "")
    (hopened : P (s.opened inner.line script).assigned)
    (hwalked : ∀ root, parse? (String.ofList (unquote script.toList)) = some root →
      P ((visit (follow parse? budget) inner false root).exec
        (s.opened inner.line script)).2.assigned) :
    P ((follow parse? (budget + 1) (.script script inner)).exec s).2.assigned := by
  show P ((commandString parse? (visit (follow parse? budget) inner false) inner.line
    script).exec s).2.assigned
  cases hroot : parse? (String.ofList (unquote script.toList)) with
  | some root =>
    have hwalk := hwalked root hroot
    rcases exec_commandString hne hroot s with hleft | ⟨-, hleft⟩
    · rw [hleft]
      exact hwalk
    · rw [hleft]
      exact hwalk
  | none =>
    simp only [commandString, if_neg hne, recovering, exec_tryCatch, exec_bind, exec_opened, hroot]
    exact hopened

theorem State.assigned_opened (s : State) (line : Int) (script : String) :
    (s.opened line script).assigned =
      if isVerbatim script.toList then s.assigned else unmarkFirst line s.assigned := by
  unfold State.opened
  split <;> rfl

end

/-- A command that tells a shell to run a text has recorded its own assignments, each at its place.
If the text is verbatim, it starts from these records; if not, the first mark of the line comes
off. After that no mark is set, and whatever is recorded stays. Where neither the values nor the
text run a text that is not verbatim, this is all that happens to the marks: a verbatim text changes
none, and any other text takes off exactly the command's own ones if and only if the command has
one assignment, and that is the first marked one of the line, or there is neither. -/
theorem shell_unmarks_first {parse? : String → Option Node} {budget : Nat} {ctx : Context}
    {n : Node} {script : String} (hruns : n.Runs script) {s t : State} {draft : Draft}
    (hread : (draftChildren (follow parse? (budget + 1)) ctx {} n.children).exec s = (.ok draft, t))
    (hname : Scope.qualified? t.scope n.draft.name = none) :
    let line := n.lineIn ctx
    let after := ((command (follow parse? (budget + 1)) ctx n).exec s).2.assigned
    let records := RecordsAt (follow parse? (budget + 1)) ctx n.children s
    let own (i : Nat) : Prop := ∃ c a, records c a i
    (∀ c ∈ n.children, c.kind = .variableAssignment → ∃ a i, records c a i) ∧
    AssignmentsKept (t.opened line script).assigned after ∧
    (RunsVerbatim parse? s.functions ctx (bundle n) →
      (∀ root, parse? (String.ofList (unquote script.toList)) = some root →
        RunsVerbatim parse? t.functions (scriptContext ctx n) root) →
      s.assigned <+: t.assigned ∧
      (∀ c a i, records c a i → a.forCommand = true ∧ s.assigned.length ≤ i ∧
        t.assigned[i]? = some a) ∧
      (isVerbatim script.toList = true → t.assigned <+: after) ∧
      (isVerbatim script.toList = false →
        (∀ i j, own i → own j → i ≠ j → MarkedAt after i ∨ MarkedAt after j) ∧
        (((∀ i, own i → ¬MarkedAt after i) ∧
            ∀ i < t.assigned.length, ¬own i → after[i]? = t.assigned[i]?) ↔
          ∀ i, own i ↔ FirstMarked line t.assigned i))) := by
  intro line after records own
  have hne := script_ne_empty hruns
  obtain ⟨scope, commands, hcommand⟩ := exec_command_of_runs hruns hread hname
  let begun : State := { t with scope := scope, commands := commands }
  have hopened : (begun.opened line script).assigned = (t.opened line script).assigned := by
    rw [State.assigned_opened, State.assigned_opened]
  have hafter : after = ((follow parse? (budget + 1) (.script script (scriptContext ctx n))).exec
      begun).2.assigned := congrArg (·.assigned) hcommand
  refine ⟨fun c hc hkind => exists_recordsAt hc hkind hread, ?_, fun hvalues htext => ?_⟩
  · rw [hafter, ← hopened]
    refine assigned_follow_script hne (.refl _) fun root _ => ?_
    exact ((Composed.visit (follow_extending parse? budget) _ false root).extending _).assigned
  · obtain ⟨hkept, hrecorded⟩ := retained_by_reading hvalues hread
    have hmark (c : Node) (a : Assignment) (i : Nat) (hrecords : records c a i) :
        a.forCommand = true := by
      obtain ⟨name, value, rfl⟩ := hrecords.eq_preceding
      rfl
    have hmarked (i : Nat) (hi : own i) : MarkedAt t.assigned i := by
      obtain ⟨c, a, hrecords⟩ := hi
      exact ⟨a, (hrecorded c a i hrecords).2, hmark c a i hrecords⟩
    have hretained : (t.opened line script).assigned <+: after := by
      rw [hafter, ← hopened]
      refine assigned_follow_script hne (List.prefix_refl _) fun root hroot => ?_
      have opened : Retains parse? t.functions (scriptContext ctx n) root
          (begun.opened line script).assigned (begun.opened line script) := by
        refine ⟨?_, List.prefix_refl _⟩
        rw [State.functions_opened]
        exact .refl t.functions
      exact (retains_visit (htext root hroot) budget false _ opened).1.assigned
    rw [State.assigned_opened] at hretained
    refine ⟨hkept, fun c a i hrecords => ⟨hmark c a i hrecords, hrecorded c a i hrecords⟩,
      fun hverbatim => ?_, fun hopen => ?_⟩
    · rwa [if_pos hverbatim] at hretained
    · rw [if_neg (Bool.eq_false_iff.1 hopen)] at hretained
      exact ⟨fun i j hi hj => markedAt_or_markedAt hretained (hmarked i hi) (hmarked j hj),
        unmarkFirst_fits_iff hretained hmarked⟩

/-- The assignment `x=1` of a one-letter name, at a column of the first row. -/
def letterAssignment (name : String) (column : Nat) : Node :=
  ⟨.variableAssignment, some (name ++ "=1"), 0, column, column + 3,
    [⟨.variableName, some name, 0, column, column + 1, []⟩,
      ⟨.number, some "1", 0, column + 2, column + 3, []⟩]⟩

/-- The command `a=1 b=1 bash -c "x"`. -/
def twiceMarked : Node :=
  ⟨.command, some "a=1 b=1 bash -c \"x\"", 0, 0, 19,
    [letterAssignment "a" 0, letterAssignment "b" 4,
      ⟨.commandName, some "bash", 0, 8, 12, [⟨.word, some "bash", 0, 8, 12, []⟩]⟩,
      ⟨.word, some "-c", 0, 13, 15, []⟩, ⟨.string, some "\"x\"", 0, 16, 19, []⟩]⟩

/-- The tree of the text `x`, the only one that can be parsed. -/
def parseLetter (text : String) : Option Node :=
  if text = "x" then
    some ⟨.program, some "x", 0, 0, 1,
      [⟨.command, some "x", 0, 0, 1,
        [⟨.commandName, some "x", 0, 0, 1, [⟨.word, some "x", 0, 0, 1, []⟩]⟩]⟩]⟩
  else none

/-- One of the two assignments of the command is still marked when the string has been run. -/
theorem shell_unmarks_first_twice :
    let jump := follow parseLetter 1
    let records := RecordsAt jump {} twiceMarked.children {}
    let after := ((command jump {} twiceMarked).exec {}).2.assigned
    twiceMarked.Runs "\"x\"" ∧ ∃ a b i j, i ≠ j ∧ records (letterAssignment "a" 0) a i ∧
      records (letterAssignment "b" 4) b j ∧ (MarkedAt after i ∨ MarkedAt after j) := by
  intro jump records after
  have hruns : twiceMarked.Runs "\"x\"" := ⟨rfl, by decide +kernel, by decide +kernel⟩
  have hread : (draftChildren jump {} {} twiceMarked.children).exec {} =
      (.ok twiceMarked.draft, ((draftChildren jump {} {} twiceMarked.children).exec {}).2) :=
    Prod.ext rfl rfl
  have htexts (text : String) (root : Node) (hroot : parseLetter text = some root) :
      root.Every Node.RunsNoText := by
    unfold parseLetter at hroot
    split at hroot
    · cases hroot
      decide +kernel
    · cases hroot
  have hvalues : RunsVerbatim parseLetter [] {} (bundle twiceMarked) := by
    refine @runsVerbatim_of_throughout parseLetter {} _ ⟨?_, ?_, htexts⟩ {}
    · intro n hn
      rw [List.mem_singleton.1 hn]
      decide +kernel
    · exact fun f hf => absurd hf List.not_mem_nil
  have htext (root : Node)
      (hroot : parseLetter (String.ofList (unquote "\"x\"".toList)) = some root) :
      RunsVerbatim parseLetter [] (scriptContext {} twiceMarked) root := by
    refine @runsVerbatim_of_throughout parseLetter {} _ ⟨?_, ?_, htexts⟩ _
    · intro n hn
      rw [List.mem_singleton.1 hn]
      exact htexts _ root hroot
    · exact fun f hf => absurd hf List.not_mem_nil
  obtain ⟨hall, -, hmarks⟩ := shell_unmarks_first hruns hread (by decide +kernel)
  obtain ⟨-, hplaced, -, hopen⟩ := hmarks hvalues htext
  obtain ⟨a, i, ha⟩ := hall (letterAssignment "a" 0) List.mem_cons_self rfl
  obtain ⟨b, j, hb⟩ :=
    hall (letterAssignment "b" 4) (List.mem_cons_of_mem _ List.mem_cons_self) rfl
  have hne : i ≠ j := by
    rintro rfl
    have hsame := (hplaced _ a i ha).2.2.symm.trans (hplaced _ b i hb).2.2
    obtain ⟨name, value, rfl⟩ := ha.eq_preceding
    obtain ⟨name', value', rfl⟩ := hb.eq_preceding
    have hcolumn : (0 : Int) = 4 := congrArg Assignment.column (Option.some.inj hsame)
    exact absurd hcolumn (by decide)
  exact ⟨hruns, a, b, i, j, hne, ha, hb,
    (hopen (by decide +kernel)).1 i j ⟨_, a, ha⟩ ⟨_, b, hb⟩ hne⟩

/-- The tree of an assignment of three characters. -/
def precedingTree (start : Nat) : Tree :=
  ⟨.variableAssignment, start, start + 3,
    [⟨.variableName, start, start + 1, []⟩, ⟨.number, start + 2, start + 3, []⟩]⟩

/-- The tree of a command whose name is a word. -/
def namedTree (own : List Nat) (start stop : Nat) (arguments : List Tree) : Tree :=
  ⟨.command, own.head?.getD start, (arguments.getLast?.map Tree.stop).getD stop,
    own.map precedingTree ++ ⟨.commandName, start, stop, [⟨.word, start, stop, []⟩]⟩ :: arguments⟩

/-- The tree of `bash -c` and an argument of the length. -/
def bashTree (own : List Nat) (start : Nat) (kind : Kind) (length : Nat) : Tree :=
  namedTree own start (start + 4)
    [⟨.word, start + 5, start + 7, []⟩, ⟨kind, start + 8, start + 8 + length, []⟩]

/-- The names that a script of some commands assigns to, and whether they are marked at its end. -/
def marksOf (text : String) (commands : List Tree) : List (String × Bool) :=
  let program (commands : List Tree) (stop : Nat) := some (Tree.mk .program 0 stop commands)
  let table : Grammar :=
    ⟨[("x", program [namedTree [] 0 1 []] 1),
      ("bash -c \"x\"", program [bashTree [] 0 .string 3] 11),
      (text, program commands text.length)]⟩
  ((script table text).exec {}).2.assigned.map fun a => (a.name, a.forCommand)

/-- The second assignment of a command stays marked, that of a command before it loses its mark
instead, with and without one of the shell's own, and so does that before a verbatim string which
runs another one. -/
theorem marks_of_others_come_off :
    marksOf "a=1 b=2 bash -c \"x\"" [bashTree [0, 4] 8 .string 3] = [("a", false), ("b", true)] ∧
      marksOf "a=1 y; b=2 bash -c \"x\"" [namedTree [0] 4 5 [], bashTree [7] 11 .string 3] =
        [("a", false), ("b", true)] ∧
      marksOf "a=1 y; bash -c \"x\"" [namedTree [0] 4 5 [], bashTree [] 7 .string 3] =
        [("a", false)] ∧
      marksOf "a=1 bash -c 'bash -c \"x\"'" [bashTree [0] 4 .rawString 13] = [("a", false)] := by
  decide +kernel

end Walk

end ShellAudit
