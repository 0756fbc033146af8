-- SUMMARY: What the parts of a value are, and that a tainted name is cleaned by assignments to it only.
import ShellAudit.Proofs.CommandCoverage

/-!
# Taint that is retained

The parts of a value are given by its nodes: one for each expansion, with the name that
the expansion reads, and one for each command that has a name. Reading them cleans no name
but keys of commands, unless a text is run. Whatever is walked, a name is cleaned only where
an assignment to it is recorded, or where a function declares a variable of this name: such a
declaration leaves no record.
-/

namespace ShellAudit

/-! ## Parts -/

/-- The parts say what the nodes read and run. -/
structure Transcribes (ns : List Node) (ps : List Part) : Prop where
  names : ps.filterMap Part.name? = ns.filterMap Node.reads?
  outputs {n : Node} : n ∈ ns → n.IsNamedCommand →
    ∃ c, .output c ∈ ps ∧ Scope.Means n.draft.name c.name
  command {c : Command} : .output c ∈ ps → ∃ n ∈ ns, n.IsNamedCommand
  untyped : .input ∉ ps

namespace Transcribes

theorem nil : Transcribes [] [] where
  names := rfl
  outputs h := absurd h List.not_mem_nil
  command h := absurd h List.not_mem_nil
  untyped := List.not_mem_nil

theorem append {ns ks : List Node} {ps qs : List Part} (h : Transcribes ns ps)
    (h' : Transcribes ks qs) : Transcribes (ns ++ ks) (ps ++ qs) where
  names := by rw [List.filterMap_append, List.filterMap_append, h.names, h'.names]
  outputs hn hnamed := by
    rcases List.mem_append.1 hn with hn | hn
    · obtain ⟨c, hc, hmeans⟩ := h.outputs hn hnamed
      exact ⟨c, List.mem_append_left _ hc, hmeans⟩
    · obtain ⟨c, hc, hmeans⟩ := h'.outputs hn hnamed
      exact ⟨c, List.mem_append_right _ hc, hmeans⟩
  command hc := by
    rcases List.mem_append.1 hc with hc | hc
    · obtain ⟨n, hn, hnamed⟩ := h.command hc
      exact ⟨n, List.mem_append_left _ hn, hnamed⟩
    · obtain ⟨n, hn, hnamed⟩ := h'.command hc
      exact ⟨n, List.mem_append_right _ hn, hnamed⟩
  untyped hinput := (List.mem_append.1 hinput).elim h.untyped h'.untyped

/-- A node that is no command and reads nothing. -/
theorem silent {n : Node} (hreads : n.reads? = none) (hunnamed : ¬n.IsNamedCommand) :
    Transcribes [n] [] where
  names := by simp [hreads]
  outputs hn hnamed := absurd (List.mem_singleton.1 hn ▸ hnamed) hunnamed
  command h := absurd h List.not_mem_nil
  untyped := List.not_mem_nil

theorem read {n : Node} {p : Part} {name : String} (hreads : n.reads? = some name)
    (hp : p.name? = some name) (hkind : n.kind ≠ .command) : Transcribes [n] [p] where
  names := by simp [hreads, hp]
  outputs hn hnamed := absurd (List.mem_singleton.1 hn ▸ hnamed.1) hkind
  command h := by
    rw [← List.mem_singleton.1 h] at hp
    cases hp
  untyped h := by
    rw [← List.mem_singleton.1 h] at hp
    cases hp

theorem ran {n : Node} {c : Command} (hnamed : n.IsNamedCommand)
    (hmeans : Scope.Means n.draft.name c.name) : Transcribes [n] [.output c] where
  names := by simp [Part.name?, Node.reads?, hnamed.1]
  outputs hn _ := ⟨c, List.mem_singleton_self _, List.mem_singleton.1 hn ▸ hmeans⟩
  command _ := ⟨n, List.mem_singleton_self n, hnamed⟩
  untyped h := by cases List.mem_singleton.1 h

/-- What carries user input is a read name that does, or the output of a command. -/
theorem carries_iff {ns : List Node} {ps : List Part} (h : Transcribes ns ps) (tainted : NameSet) :
    (∃ p ∈ ps, p.carries tainted = true) ↔
      (∃ n ∈ ns, ∃ name, n.reads? = some name ∧ (name ∈ userControlled ∨ name ∈ tainted)) ∨
        ∃ c, .output c ∈ ps ∧ c.name ≠ "mktemp" := by
  have hnamed (name : String) :
      (∃ p ∈ ps, p.name? = some name) ↔ ∃ n ∈ ns, n.reads? = some name := by
    rw [← List.mem_filterMap, ← List.mem_filterMap, h.names]
  have hcarries {p : Part} {name : String} (hp : p.name? = some name) :
      p.carries tainted = true ↔ name ∈ userControlled ∨ name ∈ tainted := by
    cases p <;> cases hp <;> simp [Part.carries, Part.isSource, Part.readsTaint]
  constructor
  · rintro ⟨p, hp, hcarry⟩
    cases hname : p.name? with
    | some name =>
      obtain ⟨n, hn, hreads⟩ := (hnamed name).1 ⟨p, hp, hname⟩
      exact .inl ⟨n, hn, name, hreads, (hcarries hname).1 hcarry⟩
    | none =>
      cases p with
      | plain name frame | braced content name mark frame => cases hname
      | output c =>
        refine .inr ⟨c, hp, ?_⟩
        simpa [Part.carries, Part.isSource, Part.readsTaint, Part.isRisky] using hcarry
      | input => exact absurd hp h.untyped
  · rintro (⟨n, hn, name, hreads, hname⟩ | ⟨c, hc, hrisky⟩)
    · obtain ⟨p, hp, hpname⟩ := (hnamed name).2 ⟨n, hn, hreads⟩
      exact ⟨p, hp, (hcarries hpname).2 hname⟩
    · exact ⟨.output c, hc, by simp [Part.carries, Part.isSource, Part.isRisky, hrisky]⟩

end Transcribes

namespace Walk

theorem finish_returns (jump : Jump → Walk Unit) (ctx : Context) (n : Node) :
    Returns (finish jump ctx n n.draft) fun c? =>
      (n.draft.name = "" → c? = none) ∧
        (n.draft.name ≠ "" → ∃ c, c? = some c ∧ Scope.Means n.draft.name c.name) := by
  unfold Walk.finish
  split
  · rename_i hempty
    exact .pure ⟨fun _ => rfl, fun h => absurd hempty h⟩
  · rename_i hnamed
    refine .bind (p := fun c => Scope.Means n.draft.name c.name) ?_ fun c hc =>
      .pure ⟨fun h => absurd h hnamed, fun _ => ⟨c, rfl, hc⟩⟩
    exact .bind (.resolve _) fun name hname => .bind (.any _) fun _ _ => .bind (.any _) fun _ _ =>
      .bind (.any _) fun _ _ => .pure hname

theorem braced_name? {n : Node} {frame : Option Frame} {part : Part}
    (h : braced n frame = .ok part) (hkind : n.kind = .expansion) :
    ∃ name, n.reads? = some name ∧ part.name? = some name := by
  unfold braced at h
  cases hname : parameter? n with
  | error fault =>
    rw [hname] at h
    cases h
  | ok name? =>
    rw [hname] at h
    cases htext : n.text <;> cases name? <;> rw [htext] at h <;> cases h
    exact ⟨_, by simp [Node.reads?, hkind, hname, Except.toOption], rfl⟩

theorem ownPart_returns (jump : Jump → Walk Unit) (ctx : Context) (n : Node) :
    Returns (ownPart ctx (command jump ctx n) n) (Transcribes [n]) := by
  unfold Walk.ownPart
  split
  · rename_i hkind
    intro s ps t h
    cases hbraced : braced n (some (frameOf n)) with
    | error fault =>
      rw [hbraced] at h
      cases h
    | ok part =>
      rw [hbraced] at h
      cases h
      obtain ⟨name, hreads, hname⟩ := braced_name? hbraced hkind
      exact .read hreads hname (by simp [hkind])
  · rename_i hkind
    refine .bind (.text n) fun written hwritten => .pure (.read ?_ rfl (by simp [hkind]))
    simp [Node.reads?, hkind, hwritten]
  · rename_i hkind
    refine .bind (p := fun c? => Transcribes [n] (c?.toList.map .output)) ?_ fun _ h => .pure h
    refine .bind (draftChildren_returns jump ctx {} n.children) ?_
    rintro draft rfl
    intro s c? t h
    obtain ⟨hnone, hsome⟩ := finish_returns jump ctx n s c? t h
    by_cases hname : n.draft.name = ""
    · rw [hnone hname]
      exact .silent (by simp [Node.reads?, hkind]) fun hnamed => hnamed.2 hname
    · obtain ⟨c, rfl, hmeans⟩ := hsome hname
      exact .ran ⟨hkind, hname⟩ hmeans
  · rename_i hkind
    exact .bind (.any _) fun _ _ => .pure (.silent (by simp [Node.reads?, hkind]) fun h => by
      simp [Node.IsNamedCommand, hkind] at h)
  · rename_i hexpansion hsimple hcommand _
    refine .pure (.silent ?_ fun h => hcommand h.1)
    unfold Node.reads?
    split <;> simp_all

theorem parts_returns (jump : Jump → Walk Unit) (ctx : Context) (n : Node) :
    Returns (parts jump ctx n) (Transcribes n.all) := by
  induction n using Node.induction with
  | step n ih =>
    have all {ns : List Node} (h : ∀ c ∈ ns, Returns (parts jump ctx c) (Transcribes c.all)) :
        Returns (partsAll jump ctx ns) (Transcribes (Node.allOf ns)) := by
      induction ns with
      | nil => exact .pure .nil
      | cons c cs ih =>
        unfold Walk.partsAll
        exact .bind (h c List.mem_cons_self) fun first hfirst =>
          .bind (ih fun d hd => h d (List.mem_cons_of_mem c hd)) fun rest hrest =>
            .pure (hfirst.append hrest)
    have own := ownPart_returns jump ctx n
    obtain ⟨kind, written, row, column, endColumn, children⟩ := n
    unfold Walk.parts
    exact .bind own fun first hfirst => .bind (all ih) fun rest hrest => .pure (hfirst.append hrest)

theorem lastValue_returns (jump : Jump → Walk Unit) (ctx : Context) (ns : List Node) :
    Returns (lastValue jump ctx ns) fun value =>
      ∃ v, ns.getLast? = some v ∧ Transcribes v.all value.parts := by
  induction ns with
  | nil => exact fun _ _ _ h => by cases h
  | cons n ns ih =>
    cases ns with
    | nil =>
      unfold Walk.lastValue
      exact .bind (parts_returns jump ctx n) fun ps hps => .bind (.any _) fun _ _ =>
        .pure ⟨n, rfl, hps⟩
    | cons m ms =>
      unfold Walk.lastValue
      rw [List.getLast?_cons_cons]
      exact ih

/-! ## What becomes of a tainted name -/

/-- The name under which the taint of an assignment for one command is kept. -/
def IsCommandKey (key : String) : Prop := ∃ name, ∃ row : Nat, key = commandKey name row

/-- The key of a command ends in the number of its row. -/
theorem not_isCommandKey {key : String} {c : Char} (hlast : key.toList.getLast? = some c)
    (hc : c.isDigit = false) : ¬IsCommandKey key := by
  rintro ⟨name, row, rfl⟩
  have hkey : (commandKey name row).toList =
      (name ++ "_cmd_ctx_").toList ++ Nat.toDigits 10 row := by
    rw [commandKey, String.toList_append]
    exact congrArg _ Nat.toList_repr
  rw [hkey, List.getLast?_append_of_ne_nil _ Nat.toDigits_ne_nil] at hlast
  have hdigit := Nat.isDigit_of_mem_toDigits (by decide) (by decide) (List.mem_of_getLast? hlast)
  rw [hc] at hdigit
  cases hdigit

/-- A relation between states that holds wherever a name stays tainted, and assignments and
functions are only added. -/
structure Lenient (key : String) (R : State → State → Prop) : Prop where
  trans {s t u : State} : R s t → R t u → R s u
  keeps {s t : State} : (key ∈ s.tainted → key ∈ t.tainted) →
    AssignmentsKept s.assigned t.assigned → s.functions.names <+: t.functions.names → R s t

/-- The walk leads to states that are related to where it starts from, however it ends. -/
def Leads (R : State → State → Prop) {α : Type} (walk : Walk α) : Prop :=
  ∀ s, R s (walk.exec s).2

/-- Whatever text a shell is told to run in the context, this leads to related states. -/
def RunsLead (R : State → State → Prop) (jump : Jump → Walk Unit) (ctx : Context) : Prop :=
  ∀ script inner, inner.function = ctx.function → Leads R (jump (.script script inner))

namespace Lenient

variable {key : String} {R : State → State → Prop} (lenient : Lenient key R) {α β : Type}
  {walk : Walk α}

include lenient

theorem bind_from {s : State} {next : α → Walk β} {p : α → Prop} (h : R s (walk.exec s).2)
    (hreturns : Returns walk p) (hnext : ∀ a, p a → Leads R (next a)) :
    R s ((walk >>= next).exec s).2 := by
  rw [exec_bind]
  rcases hexec : walk.exec s with ⟨fault | a, t⟩ <;> rw [hexec] at h
  · exact h
  · exact lenient.trans h (hnext a (hreturns s a t hexec) t)

theorem bind {next : α → Walk β} {p : α → Prop} (h : Leads R walk) (hreturns : Returns walk p)
    (hnext : ∀ a, p a → Leads R (next a)) : Leads R (walk >>= next) :=
  fun s => lenient.bind_from (h s) hreturns hnext

theorem seq {next : α → Walk β} (h : Leads R walk) (hnext : ∀ a, Leads R (next a)) :
    Leads R (walk >>= next) :=
  lenient.bind h (.any walk) fun a _ => hnext a

theorem of_extending (hextending : Extending walk) (h : Keeps [.taint] walk) : Leads R walk := by
  intro s
  have htaint : (walk.exec s).2.tainted = s.tainted := h s .taint (by simp)
  exact lenient.keeps (fun hkey => htaint ▸ hkey) (hextending s).assigned (hextending s).functions

theorem of_keeps (h : Keeps [.taint, .assigned, .functions] walk) : Leads R walk := by
  intro s
  have htaint : (walk.exec s).2.tainted = s.tainted := h s .taint (by simp)
  have hassigned : (walk.exec s).2.assigned = s.assigned := h s .assigned (by simp)
  have hfunctions : (walk.exec s).2.functions = s.functions := h s .functions (by simp)
  exact lenient.keeps (fun hkey => htaint ▸ hkey) (hassigned ▸ .refl _)
    (hfunctions ▸ List.prefix_refl _)

/-- A first walk that changes neither taint nor assignments nor functions. -/
theorem after {next : α → Walk β} (h : Keeps [.taint, .assigned, .functions] walk)
    (hnext : ∀ a, Leads R (next a)) : Leads R (walk >>= next) :=
  lenient.seq (lenient.of_keeps h) hnext

theorem pure (a : α) : Leads R (pure a : Walk α) := lenient.of_keeps (.pure a)

theorem when {p : Prop} [Decidable p] {step : Walk Unit} (h : Leads R step) :
    Leads R (when p step) := by
  unfold Walk.when
  split
  · exact h
  · exact lenient.pure ()

theorem recordAssignment (a : Assignment) : Leads R (recordAssignment a) :=
  fun s => lenient.keeps id (.append s.assigned [a]) (List.prefix_refl _)

theorem taint (name : String) : Leads R (taint name) :=
  fun s => lenient.keeps (fun hkey => NameSet.mem_insert.2 (.inl hkey)) (.refl s.assigned)
    (List.prefix_refl _)

/-- An assignment to another name. -/
theorem assignTaint {name : String} (value : Value) (hname : key ≠ name) :
    Leads R (assignTaint name value) := by
  refine fun s => lenient.keeps (fun hkey => ?_) (.refl s.assigned) (List.prefix_refl _)
  show key ∈ s.tainted.assign name value
  unfold NameSet.assign
  split
  · exact NameSet.mem_insert.2 (.inl hkey)
  · exact NameSet.mem_erase.2 ⟨hkey, hname⟩

theorem readInto (ctx : Context) (n : Node) (arguments : List String) :
    Leads R (readInto ctx n arguments) := by
  have readVariable (argument : String) : Leads R (readVariable ctx n argument) :=
    lenient.after (.resolve (by decide) argument) fun _ =>
      lenient.seq (lenient.recordAssignment _) fun _ => lenient.taint _
  induction arguments with
  | nil => exact lenient.pure ()
  | cons argument rest ih =>
    unfold Walk.readInto
    exact lenient.seq (lenient.when (readVariable argument)) fun _ => ih

/-! ### Values and commands -/

section Values

variable {jump : Jump → Walk Unit} {ctx : Context} {n : Node}

theorem finish (hkind : n.kind = .command)
    (hrun : n.RunsNoText ∨ RunsLead R jump ctx) :
    Leads R (finish jump ctx n n.draft) := by
  have runNested (c : Command) (hmeans : Scope.Means n.draft.name c.name)
      (harguments : c.arguments = n.draft.arguments) : Leads R (runNested jump ctx c) := by
    unfold Walk.runNested
    split
    · rename_i script hscript
      split
      · rename_i hshell
        rcases hrun with hquiet | hrun
        · have hshell : c.name ∈ shells := List.contains_iff_mem.1 hshell
          have hwritten : n.draft.name = c.name :=
            hmeans.eq_of_undotted ((by decide : ∀ shell ∈ shells, Scope.depth shell = 0) _ hshell)
          have hnone := hquiet hkind (hwritten ▸ hshell)
          rw [← harguments, hscript] at hnone
          cases hnone
        · exact hrun _ _ rfl
      · exact lenient.pure ()
    · exact lenient.pure ()
  unfold Walk.finish
  split
  · exact lenient.pure none
  · refine lenient.seq ?_ fun _ => lenient.pure _
    refine lenient.bind (lenient.of_keeps (.resolve (by decide) _)) (.resolve _)
      fun name hname => ?_
    exact lenient.after (.recordCommand (by decide) _) fun _ =>
      lenient.seq (lenient.when (lenient.readInto ctx n _)) fun _ =>
        lenient.seq (runNested _ hname rfl) fun _ => lenient.pure _

theorem draftChildren_of_lastValue (hkey : ¬IsCommandKey key) {ns : List Node} (draft : Draft)
    (h : ∀ n ∈ ns, Leads R (lastValue jump ctx n.children)) :
    Leads R (draftChildren jump ctx draft ns) := by
  induction ns generalizing draft with
  | nil => exact lenient.pure draft
  | cons n ns ih =>
    have rest := fun draft => ih draft fun m hm => h m (List.mem_cons_of_mem n hm)
    by_cases hassign : n.kind = .variableAssignment
    · rw [draftChildren_cons_assignment hassign]
      refine lenient.after (.text n) fun _ => lenient.after (.resolve (by decide) _) fun name =>
        lenient.seq (h n List.mem_cons_self) fun value =>
          lenient.seq (lenient.recordAssignment _) fun _ =>
            lenient.seq (lenient.assignTaint value ?_) fun _ => rest draft
      exact fun heq => hkey ⟨name, n.row, heq⟩
    · by_cases hname : n.kind = .commandName
      · rw [draftChildren_cons_name hname]
        exact lenient.after (.draftName draft n) fun draft => rest draft
      · rw [draftChildren_cons_other hassign hname]
        split
        · exact lenient.after (.draftArgument draft n) fun draft => rest draft
        · exact rest draft

theorem command_of_lastValue (hkey : ¬IsCommandKey key) (hkind : n.kind = .command)
    (hrun : n.RunsNoText ∨ RunsLead R jump ctx)
    (h : ∀ c ∈ n.children, Leads R (lastValue jump ctx c.children)) :
    Leads R (command jump ctx n) := by
  refine lenient.bind (lenient.draftChildren_of_lastValue hkey {} h)
    (draftChildren_returns jump ctx {} n.children) ?_
  rintro draft rfl
  exact lenient.finish hkind hrun

theorem ownPart {recorded : Walk (Option Command)}
    (h : n.kind = .command → Leads R recorded) : Leads R (ownPart ctx recorded n) := by
  unfold Walk.ownPart
  split
  · exact lenient.after (.liftExcept _) fun _ => lenient.pure _
  · exact lenient.after (.text n) fun _ => lenient.pure _
  · exact lenient.seq (h ‹_›) fun _ => lenient.pure _
  · exact lenient.after (.subscript (by decide) ctx n) fun _ => lenient.pure _
  · exact lenient.pure []

theorem partsAll {ns : List Node} (h : ∀ n ∈ ns, Leads R (parts jump ctx n)) :
    Leads R (partsAll jump ctx ns) := by
  induction ns with
  | nil => exact lenient.pure []
  | cons n ns ih =>
    unfold Walk.partsAll
    exact lenient.seq (h n List.mem_cons_self) fun _ =>
      lenient.seq (ih fun m hm => h m (List.mem_cons_of_mem n hm)) fun _ => lenient.pure _

theorem lastValue_of_parts {ns : List Node} (h : ∀ n ∈ ns, Leads R (parts jump ctx n)) :
    Leads R (lastValue jump ctx ns) := by
  induction ns with
  | nil => exact lenient.of_keeps (.throw _)
  | cons n ns ih =>
    cases ns with
    | nil =>
      unfold Walk.lastValue
      exact lenient.seq (h n List.mem_cons_self) fun _ =>
        lenient.after (.text n) fun _ => lenient.pure _
    | cons m ms =>
      unfold Walk.lastValue
      exact ih fun k hk => h k (List.mem_cons_of_mem n hk)

/-- Reading a value and the value of an assignment, if nothing that is run in them leads
elsewhere. -/
theorem parts_and_lastValue (hkey : ¬IsCommandKey key)
    (hrun : n.Every Node.RunsNoText ∨ RunsLead R jump ctx) :
    Leads R (parts jump ctx n) ∧ Leads R (lastValue jump ctx n.children) := by
  induction n using Node.induction with
  | step n ih =>
    have below (c : Node) (hc : c ∈ n.children) :=
      ih c hc (hrun.imp_left fun h => (Node.every_iff.1 h).2 c hc)
    refine ⟨?_, lenient.lastValue_of_parts fun c hc => (below c hc).1⟩
    have children := lenient.partsAll fun c hc => (below c hc).1
    have own : Leads R (Walk.ownPart ctx (command jump ctx n) n) :=
      lenient.ownPart fun hkind => lenient.command_of_lastValue hkey hkind
        (hrun.imp_left fun h => (Node.every_iff.1 h).1) fun c hc => (below c hc).2
    obtain ⟨kind, written, row, column, endColumn, ns⟩ := n
    unfold Walk.parts
    exact lenient.seq own fun _ => lenient.seq children fun _ => lenient.pure _

theorem lastValue (hkey : ¬IsCommandKey key)
    (hrun : n.Every Node.RunsNoText ∨ RunsLead R jump ctx) :
    Leads R (lastValue jump ctx n.children) :=
  (lenient.parts_and_lastValue hkey hrun).2

end Values

end Lenient

/-- A name that is tainted stays so. -/
def Retained (key : String) (s t : State) : Prop := key ∈ s.tainted → key ∈ t.tainted

theorem retained_lenient (key : String) : Lenient key (Retained key) where
  trans h h' := h' ∘ h
  keeps h _ _ := h

/-! ## Visits -/

/-- How many assignments to a name have been recorded, those for one command aside. -/
def State.writes (key : String) (s : State) : Nat :=
  s.assigned.countP fun a => a.name = key ∧ a.forCommand = false

/-- The function that a walk is in when it goes somewhere. -/
def Jump.function : Jump → String
  | body _ ctx => ctx.function
  | script _ ctx => ctx.function

/-- The name is one that a variable of the function can have. -/
def IsLocalOf (function key : String) : Prop := (function ++ ".").toList <+: key.toList

theorem isLocalOf_localName (ctx : Context) (name : List Char) :
    IsLocalOf ctx.function (localName ctx name) := by
  unfold IsLocalOf localName
  nth_rewrite 2 [String.toList_append]
  exact List.prefix_append _ _

theorem not_isLocalOf_of_undotted {function key : String} (h : Scope.depth key = 0) :
    ¬IsLocalOf function key := by
  intro hlocal
  refine List.count_eq_zero.1 h (hlocal.subset ?_)
  simp

/-- A name that is tainted stays so, unless an assignment to it has been recorded, or some
function has variables of this name. -/
structure Answered (key : String) (s t : State) : Prop where
  kept : AssignmentsKept s.assigned t.assigned
  functions : s.functions.names <+: t.functions.names
  tainted : key ∈ s.tainted → key ∈ t.tainted ∨ s.writes key < t.writes key ∨
    ∃ function ∈ t.functions.names, IsLocalOf function key

theorem writes_le {key : String} {s t : State} (h : AssignmentsKept s.assigned t.assigned) :
    s.writes key ≤ t.writes key := by
  unfold State.writes
  generalize s.assigned = as at h
  generalize t.assigned = bs at h
  induction h with
  | nil added => exact Nat.zero_le _
  | @cons a b as bs hkept _ ih =>
    have hname := congrArg Assignment.name hkept.same
    simp only at hname
    have hmark (ha : a.forCommand = false) : b.forCommand = false :=
      Bool.eq_false_iff.2 fun hb => absurd (hkept.mark hb) (by simp [ha])
    rw [List.countP_cons, List.countP_cons]
    refine Nat.add_le_add ih ?_
    split
    · rename_i ha
      rw [decide_eq_true_eq] at ha
      simp [hname, ha.1, hmark ha.2]
    · exact Nat.zero_le _

theorem answered_lenient (key : String) : Lenient key (Answered key) where
  trans := by
    rintro s t u ⟨hst, hnames, htaint⟩ ⟨htu, hnames', htaint'⟩
    refine ⟨hst.trans htu, hnames.trans hnames', fun hkey => ?_⟩
    rcases htaint hkey with hkey | hwritten | ⟨function, hfunction, hlocal⟩
    · exact (htaint' hkey).imp_right (.imp_left (Nat.lt_of_le_of_lt (writes_le hst)))
    · exact .inr (.inl (Nat.lt_of_lt_of_le hwritten (writes_le htu)))
    · exact .inr (.inr ⟨function, hnames'.subset hfunction, hlocal⟩)
  keeps h hkept hnames := ⟨hkept, hnames, fun hkey => .inl (h hkey)⟩

section Visits

variable {key : String} (hkey : ¬IsCommandKey key)

/-- A recorded assignment answers for what it does to its name. -/
theorem answered_write (a : Assignment) (value : Value) (hmark : a.forCommand = false) :
    Leads (Answered key) (do recordAssignment a; assignTaint a.name value) := by
  by_cases hname : a.name = key
  · intro s
    refine ⟨.append s.assigned [a], List.prefix_refl _, fun _ => .inr (.inl ?_)⟩
    show s.assigned.countP _ < (s.assigned ++ [a]).countP _
    simp [hname, hmark]
  · have lenient := answered_lenient key
    exact lenient.seq (lenient.recordAssignment a) fun _ =>
      lenient.assignTaint value (Ne.symm hname)

theorem answered_joinTaint {step : Walk Unit} (h : Leads (Answered key) step) :
    Leads (Answered key) (joinTaint step) := by
  intro s
  have hstep := h s
  rw [exec_joinTaint]
  rcases hexec : step.exec s with ⟨fault | _, t⟩ <;> rw [hexec] at hstep
  · exact ⟨hstep.kept, hstep.functions, .inl⟩
  · exact ⟨hstep.kept, hstep.functions, fun hkey => .inl (NameSet.subset_union_left _ _ _ hkey)⟩

theorem answered_recovering {step recover : Walk Unit} (h : Leads (Answered key) step)
    (hrecover : Leads (Answered key) recover) : Leads (Answered key) (recovering step recover) := by
  intro s
  have hstep := h s
  unfold Walk.recovering
  rw [exec_tryCatch]
  rcases hexec : step.exec s with ⟨fault | _, t⟩ <;> rw [hexec] at hstep
  · simp only
    split
    · exact hstep
    · exact (answered_lenient key).trans hstep (hrecover t)
  · exact hstep

variable {jump : Jump → Walk Unit} (hextending : ∀ j, Extending (jump j))
  (hjump : ∀ j, ¬IsLocalOf j.function key → Leads (Answered key) (jump j))
  {ctx : Context} (hctx : ¬IsLocalOf ctx.function key) {n : Node}

theorem answered_visitAll {parent : Kind} {first : Bool} {ns : List Node}
    (h : ∀ n ∈ ns, ∀ runs, Leads (Answered key) (visit jump ctx runs n)) :
    Leads (Answered key) (visitAll jump ctx parent first ns) := by
  have lenient := answered_lenient key
  induction ns generalizing first with
  | nil => exact lenient.pure ()
  | cons n ns ih =>
    unfold Walk.visitAll
    exact lenient.seq (h n List.mem_cons_self _) fun _ =>
      ih fun m hm => h m (List.mem_cons_of_mem n hm)

theorem answered_visitBranches {parent : Kind} {first : Bool} {ns : List Node}
    (h : ∀ n ∈ ns, ∀ runs, Leads (Answered key) (visit jump ctx runs n)) :
    Leads (Answered key) (visitBranches jump ctx parent first ns) := by
  have lenient := answered_lenient key
  induction ns generalizing first with
  | nil => exact lenient.pure ()
  | cons n ns ih =>
    unfold Walk.visitBranches
    exact lenient.seq (answered_joinTaint (h n List.mem_cons_self _)) fun _ =>
      ih fun m hm => h m (List.mem_cons_of_mem n hm)

include hextending hjump in
/-- The body of a function is walked as that of a function in the table. -/
theorem answered_call (ctx : Context) (name : String) (body : List Node) {s : State}
    (hname : name ∈ s.functions.names) :
    Answered key s ((do enter name; jump (.body body { ctx with function := name })).exec s).2 := by
  have lenient := answered_lenient key
  by_cases hlocal : IsLocalOf name key
  · have hextends : Extends s _ :=
      Extending.bind (.enter name)
        (fun _ => hextending (.body body { ctx with function := name })) s
    exact ⟨hextends.assigned, hextends.functions, fun _ =>
      .inr (.inr ⟨name, hextends.functions.subset hname, hlocal⟩)⟩
  · have hbody := hjump (.body body { ctx with function := name }) hlocal
    exact lenient.seq (lenient.of_extending (.enter name) (.enter (by decide) name))
      (fun _ => hbody) s

include hextending hjump in
theorem answered_visitCommand {first : Bool} {ns : List Node}
    (h : ∀ n ∈ ns, ∀ runs, Leads (Answered key) (visit jump ctx runs n)) :
    Leads (Answered key) (visitCommand jump ctx first ns) := by
  have lenient := answered_lenient key
  induction ns generalizing first with
  | nil => exact lenient.pure ()
  | cons n ns ih =>
    have rest : Leads (Answered key) (visitCommand jump ctx false ns) :=
      ih fun m hm => h m (List.mem_cons_of_mem n hm)
    have next := lenient.seq (h n List.mem_cons_self (Kind.command.runsChild first)) fun _ => rest
    unfold Walk.visitCommand
    split
    · exact lenient.pure ()
    · refine lenient.after (.callee n) fun name => ?_
      split
      · exact lenient.pure ()
      · intro s
        have hexec (next : Option Function → Walk Unit) :
            (lookup name >>= next).exec s = (next (s.functions.get? name)).exec s := rfl
        rw [hexec]
        cases hf : s.functions.get? name with
        | none => exact next s
        | some f =>
          simp only
          split
          · exact lenient.pure () s
          · have call := answered_call hextending hjump ctx name f.body
              (FunctionTable.mem_names_of_get? hf)
            rw [← bind_assoc]
            exact lenient.bind_from call (.any _) fun _ _ => rest
    · exact next

include hkey hjump hctx

omit hkey in
theorem answered_runs : RunsLead (Answered key) jump ctx := by
  intro script inner hsame
  refine hjump (.script script inner) ?_
  rw [Jump.function, hsame]
  exact hctx

theorem answered_lastValue (n : Node) : Leads (Answered key) (lastValue jump ctx n.children) :=
  (answered_lenient key).lastValue hkey (.inr (answered_runs hjump hctx))

theorem answered_assignment : Leads (Answered key) (assignment jump ctx n) := by
  have lenient := answered_lenient key
  exact lenient.after (.text n) fun _ => lenient.after (.resolve (by decide) _) fun _ =>
    lenient.after (.when (.subscript (by decide) ctx n)) fun _ =>
      lenient.seq (answered_lastValue hkey hjump hctx n) fun value => answered_write _ value rfl

theorem answered_localDeclaration : Leads (Answered key) (localDeclaration jump ctx n) := by
  have lenient := answered_lenient key
  have declareLocals (locals : NameSet) (ns : List Node) :
      Leads (Answered key) (declareLocals jump ctx n locals ns) := by
    induction ns generalizing locals with
    | nil => exact lenient.pure locals
    | cons m ms ih =>
      unfold Walk.declareLocals
      split
      · refine lenient.after (.text m) fun _ => lenient.seq (answered_lastValue hkey hjump hctx m)
          fun value => lenient.seq (lenient.assignTaint value ?_) fun _ =>
            lenient.after (.declareLocal (by decide) locals _) fun locals => ih locals
        rintro rfl
        exact hctx (isLocalOf_localName ctx _)
      · exact lenient.after (.firstCharacter n) fun _ =>
          lenient.after (.declareLocal (by decide) locals _) fun locals => ih locals
      · exact ih locals
  exact lenient.seq (declareLocals ∅ n.children) fun _ =>
    lenient.of_keeps (.retractAll (by decide) _)

include hextending

theorem answered_visit (runs : Bool) (n : Node) : Leads (Answered key) (visit jump ctx runs n) := by
  have lenient := answered_lenient key
  induction n using Node.induction generalizing runs with
  | step n ih =>
    have all (parent : Kind) : Leads (Answered key) (visitAll jump ctx parent true n.children) :=
      answered_visitAll ih
    have branches (parent : Kind) :
        Leads (Answered key) (visitBranches jump ctx parent true n.children) :=
      answered_visitBranches ih
    have children : Leads (Answered key) (visitCommand jump ctx true n.children) :=
      answered_visitCommand hextending hjump ih
    have assignment : Leads (Answered key) (assignment jump ctx n) :=
      answered_assignment hkey hjump hctx
    have declaration : Leads (Answered key) (localDeclaration jump ctx n) :=
      answered_localDeclaration hkey hjump hctx
    have command (hkind : n.kind = .command) : Leads (Answered key) (command jump ctx n) :=
      lenient.command_of_lastValue hkey hkind (.inr (answered_runs hjump hctx)) fun c _ =>
        answered_lastValue hkey hjump hctx c
    obtain ⟨kind, written, row, column, endColumn, ns⟩ := n
    unfold Walk.visit
    refine lenient.after (.countVisit (by decide)) fun _ => ?_
    split
    · exact lenient.of_extending (Composed.defineFunction ns).extending
        (.defineFunction (by decide) ns)
    · exact lenient.seq (command rfl) fun _ => children
    · exact lenient.of_keeps (.bind (.opener ns) fun _ =>
        .test (by decide) (by decide) (by decide) (by decide) ctx _ false _)
    · exact lenient.of_keeps (.bind (.opener ns) fun _ =>
        .arithmetic (by decide) (by decide) ctx _ false _)
    · refine lenient.after (.declarePairs (by decide) ctx ns) fun _ =>
        lenient.after (.isLocal ns) fun isLocal => ?_
      split
      · exact declaration
      · exact all _
    · exact assignment
    · exact lenient.of_keeps (.subscript (by decide) ctx _)
    · exact branches _
    · exact branches _
    · split
      · exact lenient.of_keeps (.bind (.expansion (by decide) (by decide) ctx _) fun _ =>
          .when (.runExpansion (by decide) ctx _))
      · exact all _

omit hextending hjump hctx in
/-- Wherever a walk goes, a tainted name is cleaned only by an assignment to it. -/
theorem answered_follow (parse? : String → Option Node) (budget : Nat) (j : Jump)
    (hlocal : ¬IsLocalOf j.function key) : Leads (Answered key) (follow parse? budget j) := by
  have lenient := answered_lenient key
  induction budget generalizing j with
  | zero => exact lenient.of_keeps (.throw _)
  | succ budget ih =>
    have hextending (j : Jump) := (follow_extending parse? budget j).extending
    cases j with
    | body parts ctx =>
      exact answered_visitAll fun n _ runs => answered_visit hkey hextending ih hlocal runs n
    | script script ctx =>
      unfold follow commandString
      split
      · exact lenient.pure ()
      · refine answered_recovering (lenient.seq (lenient.when ?_) fun _ => ?_) ?_
        · exact fun s => lenient.keeps id (.unmarkFirst ctx.line s.assigned) (List.prefix_refl _)
        · split
          · exact answered_visit hkey hextending ih hlocal false _
          · exact lenient.of_keeps (.throw _)
        · exact fun s => lenient.keeps id (.refl s.assigned) (List.prefix_refl _)

end Visits

end Walk

end ShellAudit
