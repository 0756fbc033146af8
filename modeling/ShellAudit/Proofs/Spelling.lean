-- SUMMARY: What is written into a variable is read only under the spelling that it was written with.
import ShellAudit.Proofs.Retention

/-!
# Spellings

An assignment taints or cleans the name that is spelled to the left of its first `=`, and an
expansion reads the name that is spelled in it. Neither is taken apart: `x`, `x+` and
`x[0]` are three names. So what is written is read where the two spellings are the same,
and it is not where they differ, whatever the shell makes of them.
-/

namespace ShellAudit

/-! ## Forms -/

/-- A name as variables have it. -/
structure IsVariableName (x : String) : Prop where
  nonempty : x ≠ ""
  plain {c : Char} : c ∈ x.toList → c.isAlphanum = true ∨ c = '_'

theorem IsVariableName.not_mem {x : String} (hx : IsVariableName x) {c : Char}
    (h : c.isAlphanum = false ∧ c ≠ '_') : c ∉ x.toList := by
  intro hc
  rcases hx.plain hc with halphanum | hunderscore
  · exact absurd halphanum (by simp [h.1])
  · exact h.2 hunderscore

/-- The ways to assign to a variable. -/
inductive Target where
  /-- The variable is written, as in `x=v`. -/
  | plain
  /-- The value is appended, as in `x+=v`. -/
  | append
  /-- An element is written, as in `x[i]=v`. -/
  | element (index : String)

/-- The ways to refer to a variable. -/
inductive Reference where
  /-- The name alone, as in `$x`. -/
  | bare
  /-- The name in braces. -/
  | braced
  /-- The name and an index in braces. -/
  | element (index : String)

/-- An index as it is spelled after the name of an array. -/
def subscripted (index : String) : String := "[" ++ index ++ "]"

/-- What is spelled between the name and `=`. -/
def Target.suffix : Target → String
  | plain => ""
  | append => "+"
  | element index => subscripted index

/-- What is spelled after the name in an expansion. -/
def Reference.suffix : Reference → String
  | bare => ""
  | braced => ""
  | element index => subscripted index

/-- What an assignment with this to the left of its `=` is taken to write. -/
def spelledName (left : String) : String := String.ofList (Text.beforeEquals left.toList)

/-- The ways of writing and reading that are spelled alike. An index that is written is cut
off at its first `=`. -/
def Target.Meets : Target → Reference → Prop
  | plain, .bare => True
  | plain, .braced => True
  | element i, .element j => spelledName (subscripted i) = subscripted j
  | _, _ => False

theorem toList_spelledName (left : String) :
    (spelledName left).toList = Text.beforeEquals left.toList := String.toList_ofList

theorem spelledName_eq_self {left : String} (h : '=' ∉ left.toList) : spelledName left = left := by
  have hall : ∀ c ∈ left.toList, decide (c ≠ '=') = true := fun c hc =>
    decide_eq_true fun heq => h (heq ▸ hc)
  rw [spelledName, Text.beforeEquals, List.takeWhile_eq_self_iff.2 hall, String.ofList_toList]

theorem toList_spelledName_append {x left : String} (hx : '=' ∉ x.toList) :
    (spelledName (x ++ left)).toList = x.toList ++ (spelledName left).toList := by
  have hall : ∀ c ∈ x.toList, decide (c ≠ '=') = true := fun c hc =>
    decide_eq_true fun heq => hx (heq ▸ hc)
  rw [toList_spelledName, toList_spelledName, String.toList_append, Text.beforeEquals,
    List.takeWhile_append_of_pos hall]
  rfl

theorem spelledName_append_equals (left rest : String) :
    spelledName (left ++ "=" ++ rest) = spelledName left := by
  have hcut (s : List Char) :
      (s ++ '=' :: rest.toList).takeWhile (· ≠ '=') = s.takeWhile (· ≠ '=') := by
    induction s with
    | nil => rfl
    | cons c s ih => rw [List.cons_append, List.takeWhile_cons, List.takeWhile_cons, ih]
  have hspelled : (left ++ "=" ++ rest).toList = left.toList ++ '=' :: rest.toList := by simp
  rw [spelledName, spelledName, hspelled, Text.beforeEquals, Text.beforeEquals, hcut]

theorem toList_subscripted (index : String) :
    (subscripted index).toList = '[' :: (index.toList ++ [']']) := by
  simp [subscripted]

theorem subscripted_injective {i j : String} (h : subscripted i = subscripted j) : i = j := by
  have hlist := congrArg String.toList h
  rw [toList_subscripted, toList_subscripted, List.cons_inj_right, List.append_left_inj] at hlist
  exact String.toList_inj.1 hlist

/-- An index without `=` has to be read as it was written. -/
theorem Target.meets_element_iff {i j : String} (hi : '=' ∉ i.toList) :
    (element i).Meets (.element j) ↔ i = j := by
  have hself : spelledName (subscripted i) = subscripted i :=
    spelledName_eq_self (by simp [toList_subscripted, hi])
  show spelledName (subscripted i) = subscripted j ↔ i = j
  rw [hself]
  exact ⟨subscripted_injective, congrArg subscripted⟩

theorem spelledName_suffix_eq_iff (target : Target) (reference : Reference) :
    spelledName target.suffix = reference.suffix ↔ target.Meets reference := by
  have hbracket (i : String) : (spelledName (subscripted i)).toList.head? = some '[' := by
    rw [toList_spelledName, toList_subscripted]
    rfl
  have hunlike {s i : String} (h : s.toList.head? ≠ some '[') : s ≠ subscripted i := by
    rintro rfl
    exact h (by rw [toList_subscripted]; rfl)
  cases target with
  | plain =>
    cases reference with
    | bare | braced => exact iff_of_true rfl trivial
    | element j => exact iff_of_false (hunlike (by decide)) id
  | append =>
    cases reference with
    | bare | braced => exact iff_of_false (by decide) id
    | element j => exact iff_of_false (hunlike (by decide)) id
  | element i =>
    cases reference with
    | bare | braced =>
      refine iff_of_false (fun h => ?_) id
      have hhead := hbracket i
      rw [show spelledName (subscripted i) = "" from h] at hhead
      cases hhead
    | element j => exact Iff.rfl

theorem spelledName_eq_iff {x : String} (hx : IsVariableName x) {target : Target}
    {reference : Reference} :
    spelledName (x ++ target.suffix) = x ++ reference.suffix ↔ target.Meets reference := by
  rw [← spelledName_suffix_eq_iff, ← String.toList_inj,
    toList_spelledName_append (hx.not_mem (by decide)), String.toList_append,
    List.append_cancel_left_eq, String.toList_inj]

/-! ## Expansions -/

/-- The node is an expansion of the variable `x` in the given form. In braces the name is the
first parameter. -/
def Reference.Expands (x : String) (m : Node) : Reference → Prop
  | bare => m.kind = .simpleExpansion ∧ m.text = some ("$" ++ x)
  | reference =>
    m.kind = .expansion ∧ ∃ front parameter back, m.children = front ++ parameter :: back ∧
      (∀ c ∈ front, c.Every (·.kind.isParameter = false)) ∧
      parameter.kind.isParameter = true ∧ parameter.text = some (x ++ reference.suffix)

namespace Walk

theorem parameter?_eq_none {n : Node} (h : n.Every (·.kind.isParameter = false)) :
    parameter? n = .ok none := by
  have all {ns : List Node} (h : ∀ c ∈ ns, parameter? c = .ok none) :
      firstParameter? ns = .ok none := by
    induction ns with
    | nil => rfl
    | cons c cs ih =>
      rw [firstParameter?, h c List.mem_cons_self]
      exact ih fun d hd => h d (List.mem_cons_of_mem c hd)
  induction n using Node.induction with
  | step n ih =>
    obtain ⟨hkind, hchildren⟩ := Node.every_iff.1 h
    have hbelow := all fun c hc => ih c hc (hchildren c hc)
    obtain ⟨kind, written, row, column, endColumn, children⟩ := n
    simp only at hkind hbelow
    simp [parameter?, hkind, hbelow]

theorem firstParameter?_append {front back : List Node} {n : Node} {name : String}
    (hfront : ∀ c ∈ front, c.Every (·.kind.isParameter = false)) (hkind : n.kind.isParameter = true)
    (htext : n.text = some name) (hname : name ≠ "") :
    firstParameter? (front ++ n :: back) = .ok (some name) := by
  induction front with
  | nil =>
    obtain ⟨kind, written, row, column, endColumn, children⟩ := n
    simp only at hkind htext
    simp [firstParameter?, parameter?, hkind, htext, hname]
  | cons c cs ih =>
    rw [List.cons_append, firstParameter?, parameter?_eq_none (hfront c List.mem_cons_self)]
    exact ih fun d hd => hfront d (List.mem_cons_of_mem c hd)

end Walk

/-- An expansion without braces reads what stands behind its dollar sign. -/
theorem Node.reads?_bare {m : Node} {name : String} (hkind : m.kind = .simpleExpansion)
    (htext : m.text = some ("$" ++ name)) (hdollar : '$' ∉ name.toList) :
    m.reads? = some name := by
  have htrim : Text.trim (· = '$') ("$" ++ name).toList = name.toList := by
    rw [String.toList_append]
    exact Text.trim_eq_self (p := (· = '$')) fun c hc =>
      decide_eq_false fun heq => hdollar (heq ▸ hc)
  simp only [reads?, hkind, htext, Option.map_some, htrim, String.ofList_toList]

/-- An expansion with braces reads its first parameter. -/
theorem Node.reads?_braced {m : Node} {name : String} (hkind : m.kind = .expansion)
    (hname : name ≠ "")
    (hparameter : ∃ front parameter back, m.children = front ++ parameter :: back ∧
      (∀ c ∈ front, c.Every (·.kind.isParameter = false)) ∧
      parameter.kind.isParameter = true ∧ parameter.text = some name) :
    m.reads? = some name := by
  obtain ⟨front, parameter, back, hchildren, hfront, hparameter, htext⟩ := hparameter
  have hread : Walk.firstParameter? m.children = .ok (some name) := by
    rw [hchildren]
    exact Walk.firstParameter?_append hfront hparameter htext hname
  obtain ⟨kind, written, row, column, endColumn, children⟩ := m
  simp only at hkind hread
  simp [Node.reads?, hkind, Walk.parameter?, Kind.isParameter, hread, Except.toOption]

/-- An expansion reads the name that is spelled in it. -/
theorem Reference.Expands.reads {x : String} {m : Node} {reference : Reference}
    (h : reference.Expands x m) (hx : IsVariableName x) :
    m.reads? = some (x ++ reference.suffix) := by
  have hname (suffix : String) : x ++ suffix ≠ "" := fun hempty =>
    hx.nonempty (String.append_eq_empty_iff.1 hempty).1
  cases reference with
  | bare =>
    rw [suffix, String.append_empty]
    exact Node.reads?_bare h.1 h.2 (hx.not_mem (by decide))
  | braced => exact Node.reads?_braced h.1 (hname _) h.2
  | element j => exact Node.reads?_braced h.1 (hname _) h.2

/-! ## Values -/

theorem Node.every_iff_forall_all {p : Node → Prop} {n : Node} :
    n.Every p ↔ ∀ m ∈ n.all, p m := by
  have children {ns : List Node} (h : ∀ c ∈ ns, c.Every p ↔ ∀ m ∈ c.all, p m) :
      (∀ c ∈ ns, c.Every p) ↔ ∀ m ∈ allOf ns, p m := by
    induction ns with
    | nil => simp [allOf]
    | cons c cs ih =>
      rw [List.forall_mem_cons, h c List.mem_cons_self,
        ih fun d hd => h d (List.mem_cons_of_mem c hd), allOf, List.forall_mem_append]
  induction n using Node.induction with
  | step n ih => rw [every_iff, children ih, all_eq, List.forall_mem_cons]

/-- A node that runs a text is a shell, so its output can be anything. -/
theorem Node.isNamedCommand_of_runsText {n : Node} (h : ¬n.RunsNoText) :
    n.IsNamedCommand ∧ n.draft.name ≠ "mktemp" := by
  simp only [RunsNoText, Classical.not_imp] at h
  obtain ⟨hkind, hshell, -⟩ := h
  have hshells : ∀ shell ∈ Walk.shells, shell ≠ "" ∧ shell ≠ "mktemp" := by decide
  exact ⟨⟨hkind, (hshells _ hshell).1⟩, (hshells _ hshell).2⟩

namespace Walk

/-- Some node of the value reads user input or a tainted variable, or it is a command whose
output the user may shape. The key of a command is no variable. -/
def Brings (tainted : NameSet) (v : Node) : Prop :=
  ∃ m ∈ v.all,
    (∃ name, m.reads? = some name ∧
      (name ∈ userControlled ∨ name ∈ tainted ∧ ¬IsCommandKey name)) ∨
    m.IsNamedCommand ∧ m.draft.name ≠ "mktemp"

theorem runsNoText_of_not_brings {tainted : NameSet} {v : Node} (h : ¬Brings tainted v) :
    v.Every Node.RunsNoText := by
  rw [Node.every_iff_forall_all]
  intro m hm
  by_contra hruns
  exact h ⟨m, hm, .inr (Node.isNamedCommand_of_runsText hruns)⟩

theorem tainted_of_keeps {α : Type} {walk : Walk α} {result : Except Fault α} {s t : State}
    (h : Keeps [.taint] walk) (hexec : walk.exec s = (result, t)) : t.tainted = s.tainted := by
  have hkept : (walk.exec s).2.tainted = s.tainted := h s .taint (by simp)
  rwa [hexec] at hkept

/-- The value is read, from a state with the taint of the first one to the second one. -/
def Reads (v : Node) (value : Value) (s u : State) : Prop :=
  ∃ jump ctx s₀, s₀.tainted = s.tainted ∧ (lastValue jump ctx [v]).exec s₀ = (.ok value, u)

namespace Reads

variable {v : Node} {value : Value} {s u : State}

theorem transcribes (h : Reads v value s u) : Transcribes v.all value.parts := by
  obtain ⟨jump, ctx, s₀, -, hexec⟩ := h
  obtain ⟨last, hlast, hparts⟩ := lastValue_returns jump ctx [v] s₀ value u hexec
  cases hlast
  exact hparts

/-- Unless a text is run, no variable is cleaned. -/
theorem retained (h : Reads v value s u) (hquiet : v.Every Node.RunsNoText) {name : String}
    (hname : ¬IsCommandKey name) (htainted : name ∈ s.tainted) : name ∈ u.tainted := by
  obtain ⟨jump, ctx, s₀, hsame, hexec⟩ := h
  have lenient := retained_lenient name
  have hleads : Leads (Retained name) (lastValue jump ctx [v]) :=
    lenient.lastValue_of_parts fun n hn => by
      rw [List.mem_singleton.1 hn]
      exact (lenient.parts_and_lastValue hname (.inl hquiet)).1
  have hread := hleads s₀
  rw [hexec] at hread
  exact hread (hsame ▸ htainted)

/-- Where there is no command, taint stays as it is. -/
theorem same (h : Reads v value s u) (hplain : v.Every (·.kind ≠ .command)) :
    u.tainted = s.tainted := by
  obtain ⟨jump, ctx, s₀, hsame, hexec⟩ := h
  have keeps {n : Node} (hn : n.Every (·.kind ≠ .command)) : Keeps [.taint] (parts jump ctx n) := by
    induction n using Node.induction with
    | step n ih =>
      obtain ⟨hkind, hchildren⟩ := Node.every_iff.1 hn
      obtain ⟨kind, written, row, column, endColumn, children⟩ := n
      unfold Walk.parts
      exact .bind (.ownPart ctx (by decide) fun hcommand => absurd hcommand hkind) fun _ =>
        .bind (.partsAll ctx fun c hc => ih c hc (hchildren c hc)) fun _ => .pure _
  have hvalue : Keeps [.taint] (lastValue jump ctx [v]) :=
    .lastValue_of_parts ctx fun n hn => keeps (List.mem_singleton.1 hn ▸ hplain)
  exact (tainted_of_keeps hvalue hexec).trans hsame

/-- What a value brings is among its parts when all of it has been read. -/
theorem carries (h : Reads v value s u) (hbrings : Brings s.tainted v) :
    ∃ p ∈ value.parts, p.carries u.tainted = true := by
  have hcarries := h.transcribes.carries_iff u.tainted
  have output {m : Node} (hm : m ∈ v.all) (hnamed : m.IsNamedCommand)
      (hname : m.draft.name ≠ "mktemp") : ∃ p ∈ value.parts, p.carries u.tainted = true := by
    obtain ⟨c, hc, hmeans⟩ := h.transcribes.outputs hm hnamed
    refine hcarries.2 (.inr ⟨c, hc, fun hmktemp => hname ?_⟩)
    rw [← hmktemp]
    exact hmeans.eq_of_undotted (hmktemp ▸ by decide)
  obtain ⟨m, hm, ⟨name, hreads, huser | ⟨htainted, hname⟩⟩ | ⟨hnamed, hname⟩⟩ := hbrings
  · exact hcarries.2 (.inl ⟨m, hm, name, hreads, .inl huser⟩)
  · by_cases hquiet : v.Every Node.RunsNoText
    · exact hcarries.2 (.inl ⟨m, hm, name, hreads, .inr (h.retained hquiet hname htainted)⟩)
    · -- A text that is run may clean the name, but the shell that runs it has an output.
      rw [Node.every_iff_forall_all] at hquiet
      obtain ⟨k, hk⟩ := Classical.not_forall.1 hquiet
      obtain ⟨hk, hruns⟩ := Classical.not_imp.1 hk
      obtain ⟨hnamed, hname⟩ := Node.isNamedCommand_of_runsText hruns
      exact output hk hnamed hname
  · exact output hm hnamed hname

/-- A value without commands carries user input if a variable that it reads does. -/
theorem carries_iff (h : Reads v value s u) (hplain : v.Every (·.kind ≠ .command)) :
    (∃ p ∈ value.parts, p.carries u.tainted = true) ↔
      ∃ m ∈ v.all, ∃ name, m.reads? = some name ∧ (name ∈ userControlled ∨ name ∈ s.tainted) := by
  rw [h.transcribes.carries_iff, h.same hplain]
  refine or_iff_left ?_
  rintro ⟨c, hc, -⟩
  obtain ⟨m, hm, hnamed⟩ := h.transcribes.command hc
  exact Node.every_iff_forall_all.1 hplain m hm hnamed.1

end Reads

/-! ## Writing -/

/-- An assignment with `left` to the left of its `=` and with the value `v` is walked. -/
structure Writes (parse? : String → Option Node) (a : Node) (left : String) (v : Node)
    (s t : State) : Prop where
  kind : a.kind = .variableAssignment
  text : ∃ rest, a.text = some (left ++ "=" ++ rest)
  value : a.children.getLast? = some v
  walked : ∃ budget ctx runs, (visit (follow parse? budget) ctx runs a).exec s = (.ok (), t)

theorem lastValue_of_getLast? {jump : Jump → Walk Unit} {ctx : Context} {ns : List Node} {v : Node}
    (h : ns.getLast? = some v) : lastValue jump ctx ns = lastValue jump ctx [v] := by
  induction ns with
  | nil => cases h
  | cons n ns ih =>
    cases ns with
    | nil =>
      cases h
      rfl
    | cons m ms =>
      rw [List.getLast?_cons_cons] at h
      rw [lastValue]
      exact ih h

theorem visit_assignment {jump : Jump → Walk Unit} {ctx : Context} {runs : Bool} {a : Node}
    (h : a.kind = .variableAssignment) :
    visit jump ctx runs a = (do countVisit; assignment jump ctx a) := by
  obtain ⟨kind, written, row, column, endColumn, children⟩ := a
  cases h
  rw [visit]

theorem resolve_eq_self {name resolved : String} {s t : State}
    (h : Scope.qualified? s.scope name = none) (hexec : (resolve name).exec s = (.ok resolved, t)) :
    resolved = name := by
  unfold resolve at hexec
  simp only [exec_bind, exec_get, h] at hexec
  cases hexec
  rfl

/-- An assignment reads its value and then taints or cleans what it is taken to write. -/
theorem Writes.assigned {parse? : String → Option Node} {a v : Node} {left : String} {s t : State}
    (h : Writes parse? a left v s t) :
    ∃ name value u, Scope.Means (spelledName left) name ∧
      (Scope.qualified? s.scope (spelledName left) = none → name = spelledName left) ∧
      Reads v value s u ∧ t.tainted = u.tainted.assign name value := by
  obtain ⟨rest, htext⟩ := h.text
  obtain ⟨budget, ctx, runs, hexec⟩ := h.walked
  rw [visit_assignment h.kind] at hexec
  obtain ⟨_, s₁, hcount, hexec⟩ := exec_bind_ok hexec
  obtain ⟨written, s₂, hwritten, hexec⟩ := exec_bind_ok hexec
  obtain rfl := (Asks.text a).same hwritten
  obtain rfl : left ++ "=" ++ rest = written := by
    simpa [Walk.text, htext] using congrArg Prod.fst hwritten
  obtain ⟨name, s₃, hname, hexec⟩ := exec_bind_ok hexec
  obtain ⟨_, s₄, hsubscript, hexec⟩ := exec_bind_ok hexec
  obtain ⟨value, u, hvalue, hexec⟩ := exec_bind_ok hexec
  rw [← spelledName, spelledName_append_equals] at hname
  rw [lastValue_of_getLast? h.value] at hvalue
  have hsame : s₄.tainted = s.tainted :=
    calc s₄.tainted
      _ = s₃.tainted := tainted_of_keeps (.when (.subscript (by decide) ctx a)) hsubscript
      _ = s₂.tainted := tainted_of_keeps (.resolve (by decide) _) hname
      _ = s.tainted := tainted_of_keeps (.countVisit (by decide)) hcount
  have hscope : s₂.scope = s.scope := by
    cases hcount
    rfl
  cases hexec
  exact ⟨name, value, u, Returns.resolve _ _ _ _ hname,
    fun hfree => resolve_eq_self (hscope ▸ hfree) hname, ⟨_, ctx, s₄, hsame, hvalue⟩, rfl⟩

/-! ## From one assignment to the next -/

/-- What is walked from the first state to the second assigns nothing to the name: no
assignment to it is recorded, and no function can have declared a variable of this name. Taint
that comes from elsewhere is allowed, as where branches are joined. -/
inductive Untouched (parse? : String → Option Node) (key : String) : State → State → Prop
  | visit {budget : Nat} {ctx : Context} {runs : Bool} {n : Node} {s t : State}
      {result : Except Fault Unit} :
      (visit (follow parse? budget) ctx runs n).exec s = (result, t) →
      t.writes key = s.writes key →
      (∀ function ∈ ctx.function :: t.functions.names, ¬IsLocalOf function key) →
      Untouched parse? key s t
  | more {s t : State} : (∀ name ∈ s.tainted, name ∈ t.tainted) → Untouched parse? key s t
  | trans {s t u : State} : Untouched parse? key s t → Untouched parse? key t u →
      Untouched parse? key s u

theorem Untouched.retained {parse? : String → Option Node} {key : String} {s t : State}
    (h : Untouched parse? key s t) (hkey : ¬IsCommandKey key) (htainted : key ∈ s.tainted) :
    key ∈ t.tainted := by
  induction h with
  | @visit budget ctx runs n s t result hexec hwrites hlocal =>
    have hextending (j : Jump) := (follow_extending parse? budget j).extending
    have hjump (j : Jump) := answered_follow hkey parse? budget j
    have hanswered := answered_visit hkey hextending hjump (hlocal _ List.mem_cons_self) runs n s
    rw [hexec] at hanswered
    rcases hanswered.tainted htainted with hkept | hwritten | ⟨function, hfunction, hshared⟩
    · exact hkept
    · exact absurd hwrites (Nat.ne_of_gt hwritten)
    · exact absurd hshared (hlocal function (List.mem_cons_of_mem _ hfunction))
  | more hmore => exact hmore key htainted
  | trans _ _ ih ih' => exact ih' (ih htainted)

/-- An element of an array is not named like the key of a command. -/
theorem not_isCommandKey_spelled {x : String} (hx : ¬IsCommandKey x) (reference : Reference) :
    ¬IsCommandKey (x ++ reference.suffix) := by
  cases reference with
  | bare | braced =>
    rw [Reference.suffix, String.append_empty]
    exact hx
  | element j =>
    refine not_isCommandKey (c := ']') ?_ (by decide)
    rw [String.toList_append, Reference.suffix, toList_subscripted, ← List.cons_append,
      ← List.append_assoc, List.getLast?_concat]

/-- Appending goes to another name. -/
theorem not_means_append {x : String} (hx : IsVariableName x) :
    ¬Scope.Means (spelledName (x ++ Target.append.suffix)) x := by
  intro hmeans
  have hundotted : Scope.depth x = 0 := List.count_eq_zero.2 (hx.not_mem (by decide))
  have hspelled := hmeans.eq_of_undotted hundotted
  have hlist := congrArg String.toList hspelled
  rw [toList_spelledName_append (hx.not_mem (by decide))] at hlist
  exact absurd (List.append_right_eq_self.1 hlist) (by decide)

end Walk

/-- The value runs nothing and reads no other name. -/
structure Node.ReadsOnly (v : Node) (name : String) : Prop where
  plain : v.Every (·.kind ≠ .command)
  only {m : Node} {other : String} : m ∈ v.all → m.reads? = some other → other = name

namespace Walk

/-- Appending never cleans a variable, unless the appended value runs a text. What is written
into a variable is read by a later assignment if the two are spelled alike: then the assigned
variable is tainted. If they are spelled differently, the write leaves what is read as it is,
and the later assignment goes by that. -/
theorem taint_read_as_spelled (parse? : String → Option Node) {x : String} (hx : IsVariableName x)
    (hvariable : ¬IsCommandKey x) {target : Target} {a va : Node} {s t : State}
    (hwrite : Writes parse? a (x ++ target.suffix) va s t) :
    (target = .append → ¬Brings s.tainted va → x ∈ s.tainted → x ∈ t.tainted) ∧
      (Scope.qualified? s.scope (spelledName (x ++ target.suffix)) = none →
        ∀ (reference : Reference) (m b vb : Node) (y : String) (u v : State),
          let key := x ++ reference.suffix
          Untouched parse? key t u → Writes parse? b y vb u v → '=' ∉ y.toList →
          Scope.qualified? u.scope y = none → m ∈ vb.all → reference.Expands x m →
          (target.Meets reference → Brings s.tainted va → y ∈ v.tainted) ∧
            (¬target.Meets reference → va.Every (·.kind ≠ .command) →
              (key ∈ t.tainted ↔ key ∈ s.tainted)) ∧
            (vb.ReadsOnly key → key ∉ userControlled → (y ∈ v.tainted ↔ key ∈ u.tainted))) := by
  obtain ⟨name, written, s', hmeans, hself, hreads, htainted⟩ := hwrite.assigned
  constructor
  · rintro rfl hclean hxs
    rw [htainted, NameSet.mem_assign_of_ne]
    · exact hreads.retained (runsNoText_of_not_brings hclean) hvariable hxs
    · rintro rfl
      exact not_means_append hx hmeans
  intro hfree reference m b vb y u v key hbetween hlater hy hyfree hm hexpands
  have hname := hself hfree
  subst hname
  have hkey : ¬IsCommandKey key := not_isCommandKey_spelled hvariable reference
  obtain ⟨name, value, u', -, hself', hreads', htainted'⟩ := hlater.assigned
  rw [spelledName_eq_self hy] at hself'
  have hname := hself' hyfree
  subst hname
  have hread : m.reads? = some key := hexpands.reads hx
  refine ⟨fun hmeets hbrings => ?_, fun hunlike hplain => ?_, fun honly huser => ?_⟩
  · have hwritten : x ++ reference.suffix ∈ t.tainted := by
      rw [htainted, ← (spelledName_eq_iff hx).2 hmeets, NameSet.mem_assign_self]
      exact hreads.carries hbrings
    rw [htainted', NameSet.mem_assign_self]
    exact hreads'.carries ⟨m, hm, .inl ⟨key, hread, .inr ⟨hbetween.retained hkey hwritten, hkey⟩⟩⟩
  · rw [htainted, NameSet.mem_assign_of_ne, hreads.same hplain]
    exact fun heq => hunlike ((spelledName_eq_iff hx).1 heq.symm)
  · rw [htainted', NameSet.mem_assign_self, hreads'.carries_iff honly.plain]
    constructor
    · rintro ⟨k, hk, other, hother, hcarries⟩
      obtain rfl := honly.only hk hother
      exact hcarries.resolve_left huser
    · exact fun hkey => ⟨m, hm, key, hread, .inr hkey⟩

/-- The nodes of `x[k]=$1`, `echo` and `y=${x[k]}`, which stand in one row. -/
def elementWrite : Node :=
  ⟨.variableAssignment, some "x[k]=$1", 0, 0, 7,
    [⟨.subscript, some "x[k]", 0, 0, 4, []⟩, ⟨.simpleExpansion, some "$1", 0, 5, 7, []⟩]⟩

def echoCommand : Node :=
  ⟨.command, some "echo", 0, 9, 13,
    [⟨.commandName, some "echo", 0, 9, 13, [⟨.word, some "echo", 0, 9, 13, []⟩]⟩]⟩

def elementExpansion : Node :=
  ⟨.expansion, some "$\x7bx[k]\x7d", 0, 17, 24,
    [⟨.other "$\x7b", some "$\x7b", 0, 17, 19, []⟩, ⟨.subscript, some "x[k]", 0, 19, 23, []⟩,
      ⟨.other "\x7d", some "\x7d", 0, 23, 24, []⟩]⟩

def elementRead : Node :=
  ⟨.variableAssignment, some "y=$\x7bx[k]\x7d", 0, 15, 24,
    [⟨.variableName, some "y", 0, 15, 16, []⟩, elementExpansion]⟩

/-- The state after the visit of a node of a script that runs no texts. -/
def State.after (s : State) (n : Node) : State :=
  ((visit (follow (fun _ => none) 0) {} false n).exec s).2

/-- What is written into an element is read from this element. -/
theorem taint_read_as_spelled_element :
    let written := State.after {} elementWrite
    let echoed := written.after echoCommand
    Untouched (fun _ => none) "x[k]" written echoed ∧
      Reference.Expands "x" elementExpansion (.element "k") ∧
      "y" ∈ (echoed.after elementRead).tainted := by
  intro written echoed
  have hx : IsVariableName "x" := by
    refine ⟨by decide, fun hc => .inl ?_⟩
    rw [List.mem_singleton.1 hc]
    decide
  have hvariable : ¬IsCommandKey "x" := not_isCommandKey (c := 'x') (by decide) (by decide)
  have hwrite : Writes (fun _ => none) elementWrite ("x" ++ (Target.element "k").suffix)
      ⟨.simpleExpansion, some "$1", 0, 5, 7, []⟩ {} written :=
    ⟨rfl, ⟨"$1", by decide⟩, rfl, 0, {}, false, Prod.ext (by decide +kernel) rfl⟩
  have hread : Writes (fun _ => none) elementRead "y" elementExpansion echoed
      (echoed.after elementRead) :=
    ⟨rfl, ⟨"$\x7bx[k]\x7d", by decide⟩, rfl, 0, {}, false, Prod.ext (by decide +kernel) rfl⟩
  have hecho : (visit (follow (fun _ => none) 0) {} false echoCommand).exec written =
      (.ok (), echoed) := Prod.ext (by decide +kernel) rfl
  have hbetween : Untouched (fun _ => none) "x[k]" written echoed :=
    .visit hecho (by decide +kernel) fun _ _ => not_isLocalOf_of_undotted (by decide)
  have hexpands : Reference.Expands "x" elementExpansion (.element "k") :=
    ⟨rfl, [_], _, [_], rfl, by decide, rfl, rfl⟩
  have hbrings : Brings ∅ ⟨.simpleExpansion, some "$1", 0, 5, 7, []⟩ :=
    ⟨_, List.mem_cons_self, .inl ⟨"1", by decide, .inl (by decide)⟩⟩
  have htaint := (taint_read_as_spelled _ hx hvariable hwrite).2 (by decide) (.element "k")
    elementExpansion elementRead elementExpansion "y" echoed _ hbetween hread (by decide)
    (by decide +kernel) List.mem_cons_self hexpands
  exact ⟨hbetween, hexpands, htaint.1 ((Target.meets_element_iff (by decide)).2 rfl) hbrings⟩

/-! ## Other spellings -/

/-- The tree of an expansion of a variable, where the name has the given length. -/
def expansionTree (start length : Nat) : Tree :=
  ⟨.simpleExpansion, start, start + 1 + length,
    [⟨.other "$", start, start + 1, []⟩, ⟨.variableName, start + 1, start + 1 + length, []⟩]⟩

/-- The tree of an element with an index of one digit. -/
def elementTree (start : Nat) : Tree :=
  ⟨.subscript, start, start + 4,
    [⟨.variableName, start, start + 1, []⟩, ⟨.other "[", start + 1, start + 2, []⟩,
      ⟨.number, start + 2, start + 3, []⟩, ⟨.other "]", start + 3, start + 4, []⟩]⟩

/-- The tree of an expansion of such an element. -/
def elementExpansionTree (start : Nat) : Tree :=
  ⟨.expansion, start, start + 7,
    [⟨.other "$\x7b", start, start + 2, []⟩, elementTree (start + 2),
      ⟨.other "\x7d", start + 6, start + 7, []⟩]⟩

/-- The tree of an assignment, from the trees of its two sides. -/
def assignmentTree (target value : Tree) : Tree :=
  ⟨.variableAssignment, target.start, value.stop,
    [target, ⟨.other "=", target.stop, value.start, []⟩, value]⟩

def variableTree (start length : Nat) : Tree := ⟨.variableName, start, start + length, []⟩

/-- Scripts that write user input into a variable and assign the variable to `y` next. In the
first four the two are spelled differently. In the fifth the name of a command captures the
name of the variable, and in the sixth the variable is named like the key of a command. -/
def respelledScripts : List (String × Tree) :=
  [("x+=$1; y=$x",
      ⟨.program, 0, 11,
        [assignmentTree (variableTree 0 1) (expansionTree 3 1),
          assignmentTree (variableTree 7 1) (expansionTree 9 1)]⟩),
    ("x[0]=$1; y=$x",
      ⟨.program, 0, 13,
        [assignmentTree (elementTree 0) (expansionTree 5 1),
          assignmentTree (variableTree 9 1) (expansionTree 11 1)]⟩),
    ("x[0]=$1; y=$\x7bx[1]\x7d",
      ⟨.program, 0, 18,
        [assignmentTree (elementTree 0) (expansionTree 5 1),
          assignmentTree (variableTree 9 1) (elementExpansionTree 11)]⟩),
    ("x=$1; y=$\x7bx[0]\x7d",
      ⟨.program, 0, 15,
        [assignmentTree (variableTree 0 1) (expansionTree 2 1),
          assignmentTree (variableTree 6 1) (elementExpansionTree 8)]⟩),
    ("./a.x; x=$1; y=$x",
      ⟨.program, 0, 17,
        [⟨.command, 0, 5, [⟨.commandName, 0, 5, [⟨.word, 0, 5, []⟩]⟩]⟩,
          assignmentTree (variableTree 7 1) (expansionTree 9 1),
          assignmentTree (variableTree 13 1) (expansionTree 15 1)]⟩),
    ("x_cmd_ctx_0=$1; x=1 true; y=$x_cmd_ctx_0",
      ⟨.program, 0, 40,
        [assignmentTree (variableTree 0 11) (expansionTree 12 1),
          ⟨.command, 16, 24,
            [assignmentTree (variableTree 16 1) ⟨.number, 18, 19, []⟩,
              ⟨.commandName, 20, 24, [⟨.word, 20, 24, []⟩]⟩]⟩,
          assignmentTree (variableTree 26 1) (expansionTree 28 11)]⟩)]

/-- The script is walked to its end, what is written is user input, what `y` is assigned reads a
variable, and `y` is not tainted. -/
def losesTaint (text : String) (tree : Tree) : Bool :=
  let outcome := (script ⟨[(text, some tree)]⟩ text).exec {}
  outcome.1 = .ok () ∧
    (∃ a ∈ outcome.2.assigned, a.value.any (·.parts.any Part.isSource) = true) ∧
    (∃ b ∈ outcome.2.assigned, b.name = "y" ∧ b.value.any (·.parts.any (·.name?.isSome)) = true) ∧
    "y" ∉ outcome.2.tainted

theorem taint_not_read : (respelledScripts.all fun p => losesTaint p.1 p.2) = true := by
  decide +kernel

end Walk

end ShellAudit
