-- SUMMARY: A variable in braces is taken for a name with braces, and is run and indexed by unseen.
import ShellAudit.Check.Injection
import ShellAudit.Proofs.Nesting
import ShellAudit.Proofs.Spelling

/-!
# Braced names

To the shell, a variable is the same with and without braces. The name of a command is recorded
without the dollar sign and the quotes around it, but with the braces, and an index is searched
for the dollar sign and the name right behind it. So a name in braces is compared with names that
have none: it is reported neither as a command nor in an index.
-/

namespace ShellAudit

/-! ## Searching -/

namespace Text

/-- What holds no `c` stands before the `c`, or not at all. -/
theorem prefix_append_cons_iff {c : Char} {v s t : List Char} (hv : c ∉ v) :
    v <+: s ++ c :: t ↔ v <+: s := by
  induction s generalizing v with
  | nil =>
    cases v with
    | nil => simp
    | cons d v =>
      have hne : d ≠ c := fun h => hv (h ▸ List.mem_cons_self)
      simp [List.cons_prefix_cons, hne]
  | cons d s ih =>
    cases v with
    | nil => simp
    | cons e v =>
      rw [List.cons_append, List.cons_prefix_cons, List.cons_prefix_cons,
        ih fun h => hv (List.mem_cons_of_mem e h)]

/-- A needle with one `c`, its first character, starts before, at or after a `c` of the text. -/
theorem infix_append_cons_iff {c : Char} {v s t : List Char} (hv : c ∉ v) :
    c :: v <:+: s ++ c :: t ↔ c :: v <:+: s ∨ v <+: t ∨ c :: v <:+: t := by
  induction s with
  | nil => simp [List.infix_cons_iff, List.cons_prefix_cons]
  | cons d s ih =>
    rw [List.cons_append, List.infix_cons_iff, List.infix_cons_iff, ih, List.cons_prefix_cons,
      List.cons_prefix_cons, prefix_append_cons_iff hv, or_assoc]

theorem infix_append_iff_of_not_mem {c : Char} {v s t : List Char} (hs : c ∉ s) :
    c :: v <:+: s ++ t ↔ c :: v <:+: t := by
  induction s with
  | nil => rfl
  | cons d s ih =>
    obtain ⟨hd, hs⟩ := List.ne_and_not_mem_of_not_mem_cons hs
    rw [List.cons_append, List.infix_cons_iff, ih hs, List.cons_prefix_cons]
    simp [hd]

/-- What is taken off both ends comes off, and nothing of what is between. -/
theorem trim_between {p : Char → Bool} {front s back : List Char} (hfront : ∀ c ∈ front, p c = true)
    (hs : ∀ c ∈ s, p c = false) (hback : ∀ c ∈ back, p c = true) :
    trim p (front ++ s ++ back) = s := by
  have dropped {outer rest : List Char} (houter : ∀ c ∈ outer, p c = true) :
      (outer ++ rest).dropWhile p = rest.dropWhile p := by
    rw [List.dropWhile_append, List.dropWhile_eq_nil_iff.2 houter]
    rfl
  cases s with
  | nil =>
    have hall : ∀ c ∈ front ++ [] ++ back, p c = true := by
      intro c hc
      rw [List.append_nil, List.mem_append] at hc
      exact hc.elim (hfront c) (hback c)
    rw [trim, List.dropWhile_eq_nil_iff.2 hall]
    rfl
  | cons d s =>
    have hd : p d = false := hs d List.mem_cons_self
    have hstart : (front ++ (d :: s) ++ back).dropWhile p = d :: s ++ back := by
      rw [List.append_assoc, dropped hfront, List.cons_append, List.dropWhile_cons, hd]
      rfl
    have hself := trim_eq_self hs
    rw [trim, List.dropWhile_cons, hd] at hself
    rw [trim, hstart, trimEnd, List.reverse_append,
      dropped fun c hc => hback c (List.mem_reverse.1 hc)]
    exact hself

end Text

/-! ## Names of commands -/

/-- The ways to write a variable whose value is run as a command. -/
structure CallForm where
  braces : Bool
  quotes : Bool
deriving DecidableEq, Repr

namespace CallForm

/-- What is left of the name when dollar sign and quotes are off. -/
def stripped (form : CallForm) (x : String) : String :=
  if form.braces then "\x7b" ++ x ++ "\x7d" else x

def written (form : CallForm) (x : String) : String :=
  if form.quotes then "\"$" ++ form.stripped x ++ "\"" else "$" ++ form.stripped x

variable {form : CallForm} {x : String}

theorem mem_stripped {c : Char} (hc : c ∈ (form.stripped x).toList) :
    c ∈ x.toList ∨ c = '\x7b' ∨ c = '\x7d' := by
  unfold stripped at hc
  split at hc
  · simp only [String.toList_append, List.mem_append] at hc
    rcases hc with (hopen | hx) | hclose
    · exact .inr (.inl (List.mem_singleton.1 hopen))
    · exact .inl hx
    · exact .inr (.inr (List.mem_singleton.1 hclose))
  · exact .inl hc

theorem not_mem_stripped (hx : IsVariableName x) {c : Char}
    (hc : c ∈ ['$', '"', '\x27']) : c ∉ (form.stripped x).toList := by
  intro hmem
  have hplain : c.isAlphanum = false ∧ c ≠ '_' ∧ c ≠ '\x7b' ∧ c ≠ '\x7d' := by
    simp only [List.mem_cons, List.not_mem_nil, or_false] at hc
    rcases hc with rfl | rfl | rfl <;> decide
  rcases mem_stripped hmem with hname | hopen | hclose
  · exact hx.not_mem ⟨hplain.1, hplain.2.1⟩ hname
  · exact hplain.2.2.1 hopen
  · exact hplain.2.2.2 hclose

theorem stripped_ne_empty (hx : IsVariableName x) : form.stripped x ≠ "" := by
  unfold stripped
  split
  · intro hempty
    have hopen := (String.append_eq_empty_iff.1 hempty).1
    exact hx.nonempty (String.append_eq_empty_iff.1 hopen).2
  · exact hx.nonempty

/-- Dollar sign and quotes are off when the name is recorded. The braces are not. -/
theorem trim_written (hx : IsVariableName x) :
    Text.trim Walk.decoratesName (form.written x).toList = (form.stripped x).toList := by
  have hkept : ∀ c ∈ (form.stripped x).toList, Walk.decoratesName c = false := by
    intro c hc
    simp only [Walk.decoratesName, Bool.or_eq_false_iff, decide_eq_false_iff_not]
    refine ⟨⟨?_, ?_⟩, ?_⟩ <;> rintro rfl <;> exact not_mem_stripped hx (by decide) hc
  have decorates {s : String} (h : s.toList.all Walk.decoratesName = true) :
      ∀ c ∈ s.toList, Walk.decoratesName c = true := List.all_eq_true.1 h
  unfold written
  split
  · rw [String.toList_append, String.toList_append]
    exact Text.trim_between (decorates (by decide)) hkept (decorates (by decide))
  · rw [String.toList_append, ← List.append_nil ("$".toList ++ _)]
    exact Text.trim_between (decorates (by decide)) hkept fun _ hc => absurd hc List.not_mem_nil

/-- What has been recorded is looked up as it is. -/
theorem stripName_stripped (hx : IsVariableName x) :
    Check.stripName (form.stripped x) = form.stripped x := by
  have hquotes : ∀ c ∈ (form.stripped x).toList,
      (decide (c = '"') || decide (c = '\x27')) = false := by
    intro c hc
    simp only [Bool.or_eq_false_iff, decide_eq_false_iff_not]
    refine ⟨?_, ?_⟩ <;> rintro rfl <;> exact not_mem_stripped hx (by decide) hc
  have hdollar : (form.stripped x).toList.dropWhile (· = '$') = (form.stripped x).toList := by
    cases hstripped : (form.stripped x).toList with
    | nil => rfl
    | cons c cs =>
      have hc : c ≠ '$' := by
        rintro rfl
        have hdollar : '$' ∈ (form.stripped x).toList := hstripped ▸ List.mem_cons_self
        exact not_mem_stripped hx (by decide) hdollar
      simp [hc]
  rw [Check.stripName, Text.trim_eq_self hquotes, hdollar, String.ofList_toList]

end CallForm

/-- The command runs the variable `x`: the last of its names is written so. -/
structure Node.RunsVariable (n name : Node) (form : CallForm) (x : String) : Prop where
  kind : n.kind = .command
  nameKind : name.kind = .commandName
  last : ∃ before after, n.children = before ++ name :: after ∧ ∀ c ∈ after, c.kind ≠ .commandName
  text : (name.children.head?.getD name).text = some (form.written x)

theorem Node.RunsVariable.draft {n name : Node} {form : CallForm} {x : String}
    (h : n.RunsVariable name form x) (hx : IsVariableName x) :
    n.draft.name = form.stripped x ∧ n.draft.column = name.column := by
  obtain ⟨before, after, hchildren, hafter⟩ := h.last
  have hnamed : n.draft = ((Walk.Draft.read {} before).named name).read after := by
    rw [Node.draft, hchildren, Walk.Draft.read, List.foldl_append, List.foldl_cons, Walk.Draft.add,
      if_pos h.nameKind]
    rfl
  rcases Walk.Draft.read_named ((Walk.Draft.read {} before).named name) after with
    ⟨hname, hcolumn⟩ | ⟨c, hc, hkind, -⟩
  · refine ⟨?_, hnamed ▸ hcolumn⟩
    rw [hnamed, hname, Walk.Draft.named, h.text, Option.getD_some, CallForm.trim_written hx,
      String.ofList_toList]
  · exact absurd hkind (hafter c hc)

namespace Walk

theorem exec_resolve (name : String) (s : State) : ∃ scope,
    (resolve name).exec s =
      (.ok ((Scope.qualified? s.scope name).getD name), { s with scope := scope }) :=
  ⟨_, exec_resolve_eq name s⟩

/-- A command is recorded as soon as its name is known, and stays recorded whatever it does. -/
theorem commands_record {jump : Jump → Walk Unit}
    (jumps : ∀ j, Composed (fun step _ => Extending step) (jump j) (jump j)) (ctx : Context)
    (n : Node) (draft : Draft) (s : State) :
    s.commands ++ [{ name := (Scope.qualified? s.scope draft.name).getD draft.name
                     arguments := draft.arguments
                     line := n.lineIn ctx
                     column := ctx.column + draft.column }] <+:
      ((record jump ctx n draft).exec s).2.commands := by
  obtain ⟨scope, hresolve⟩ := exec_resolve draft.name s
  have rest (c : Command) : Extending (do
      when (c.name = "read") (readInto ctx n draft.arguments)
      runNested jump ctx c
      return c) :=
    .bind (Plain.when (.readInto ctx n _)).extending fun _ =>
      .bind (Composed.runNested jumps ctx c).extending fun _ => .pure c
  let c : Command :=
    { name := (Scope.qualified? s.scope draft.name).getD draft.name
      arguments := draft.arguments
      line := n.lineIn ctx
      column := ctx.column + draft.column }
  unfold record
  rw [exec_bind, hresolve]
  exact (rest c { s with scope := scope, commands := s.commands ++ [c] }).commands

theorem commands_command {jump : Jump → Walk Unit}
    (jumps : ∀ j, Composed (fun step _ => Extending step) (jump j) (jump j)) (ctx : Context)
    {n : Node} (hnamed : n.draft.name ≠ "") {s t : State} {draft : Draft}
    (hdraft : (draftChildren jump ctx {} n.children).exec s = (.ok draft, t)) :
    t.commands ++ [{ name := (Scope.qualified? t.scope n.draft.name).getD n.draft.name
                     arguments := n.draft.arguments
                     line := n.lineIn ctx
                     column := ctx.column + n.draft.column }] <+:
      ((command jump ctx n).exec s).2.commands := by
  obtain rfl : draft = n.draft := draftChildren_returns jump ctx {} n.children s draft t hdraft
  have hrecord := commands_record jumps ctx n n.draft t
  rw [command, exec_bind, hdraft]
  simp only [finish, if_neg hnamed]
  rw [exec_bind]
  rcases hexec : (record jump ctx n n.draft).exec t with ⟨_ | c, u⟩ <;> rw [hexec] at hrecord <;>
    exact hrecord

end Walk

/-! ## Judging -/

/-- A name as it is tainted by an assignment to a variable. -/
structure IsPlainKey (v : String) : Prop where
  nonempty : v ≠ ""
  undollared : '$' ∉ v.toList
  unbraced : v.toList.head? ≠ some '\x7b'

namespace Check

theorem head?_taintKey (assigned : List Assignment) (c : Command) {name : String} (h : name ≠ "") :
    (taintKey assigned c name).toList.head? = name.toList.head? := by
  unfold taintKey
  split
  · unfold Walk.commandKey
    cases hname : name.toList with
    | nil => exact absurd (String.toList_eq_nil_iff.1 hname) h
    | cons d ds => simp [hname]
  · rfl

variable {script : Script} {assigned : List Assignment} {tainted : NameSet} {c : Command}

/-- A command is reported or left alone as its name and line say. -/
theorem runsInput_eq_nil_iff (hself : stripName c.name = c.name)
    (hdollar : c.name.toList.head? ≠ some '$') :
    runsInput script assigned tainted c = .ok [] ↔
      (taintKey assigned c c.name ∈ tainted →
        ∃ line, lineOrEmpty script.lines c.line = .ok line ∧ isExempt c c.name line = true) := by
  unfold runsInput
  simp only [hself, hdollar, false_or]
  split
  · rename_i hkey
    cases hline : lineOrEmpty script.lines c.line with
    | error fault => simp [bind, Except.bind, hkey]
    | ok line =>
      by_cases hexempt : isExempt c c.name line = true
      · simp [bind, Except.bind, hexempt, pure, Except.pure]
      · cases hplaced : injected script c.line c.column (some (String.ofList line))
            Wording.validateInput with
        | error fault => simp [bind, Except.bind, hexempt, hplaced, hkey]
        | ok finding => simp [bind, Except.bind, hexempt, hplaced, hkey, pure, Except.pure]
  · rename_i hkey
    simp [hkey]

variable {x : String} {form : CallForm}

theorem runsInput_stripped (hx : IsVariableName x) (hname : c.name = form.stripped x) :
    runsInput script assigned tainted c = .ok [] ↔
      (taintKey assigned c (form.stripped x) ∈ tainted →
        ∃ line, lineOrEmpty script.lines c.line = .ok line ∧
          isExempt c (form.stripped x) line = true) := by
  have hself : stripName c.name = c.name := by rw [hname, CallForm.stripName_stripped hx]
  have hdollar : c.name.toList.head? ≠ some '$' := fun h =>
    CallForm.not_mem_stripped hx (by decide) (hname ▸ List.mem_of_mem_head? h)
  rw [runsInput_eq_nil_iff hself hdollar, hname]

/-- No name that a variable can have is looked up for a command whose name is in braces. -/
theorem taintKey_braced (hplain : ∀ v ∈ tainted, IsPlainKey v) (hbraces : form.braces = true) :
    taintKey assigned c (form.stripped x) ∉ tainted := by
  intro hkey
  have hopen : form.stripped x = "\x7b" ++ x ++ "\x7d" := by simp [CallForm.stripped, hbraces]
  have hhead : (form.stripped x).toList.head? = some '\x7b' := by simp [hopen]
  have hnonempty : form.stripped x ≠ "" := by
    intro hempty
    rw [hempty] at hhead
    cases hhead
  exact (hplain _ hkey).unbraced ((head?_taintKey assigned c hnonempty).trans hhead)

theorem mentionsTaint_iff {index : String} :
    mentionsTaint tainted index = true ↔ ∃ v ∈ tainted, '$' :: v.toList <:+: index.toList := by
  simp [mentionsTaint, Text.contains_iff_infix, NameSet.mem_def]

/-- An index mentions a variable before the reference, behind it, or by the reference itself,
which is then read on into what follows. -/
theorem mentionsTaint_reference (form : CallForm) (hx : IsVariableName x)
    (hplain : ∀ v ∈ tainted, IsPlainKey v) (before after : String) :
    mentionsTaint tainted (before ++ ("$" ++ form.stripped x) ++ after) = true ↔
      (mentionsTaint tainted before = true ∨ mentionsTaint tainted after = true) ∨
        ∃ v ∈ tainted, v.toList <+: (form.stripped x ++ after).toList := by
  have hindex : (before ++ ("$" ++ form.stripped x) ++ after).toList =
      before.toList ++ '$' :: ((form.stripped x).toList ++ after.toList) := by simp
  have hsplit (v : String) (hv : v ∈ tainted) :
      '$' :: v.toList <:+: (before ++ ("$" ++ form.stripped x) ++ after).toList ↔
        ('$' :: v.toList <:+: before.toList ∨ '$' :: v.toList <:+: after.toList) ∨
          v.toList <+: (form.stripped x ++ after).toList := by
    rw [hindex, Text.infix_append_cons_iff (hplain v hv).undollared,
      Text.infix_append_iff_of_not_mem (CallForm.not_mem_stripped hx (by decide)),
      String.toList_append, or_assoc, or_comm (a := _ <+: _)]
  simp only [mentionsTaint_iff]
  constructor
  · rintro ⟨v, hv, hstands⟩
    rcases (hsplit v hv).1 hstands with (hbefore | hafter) | hreference
    · exact .inl (.inl ⟨v, hv, hbefore⟩)
    · exact .inl (.inr ⟨v, hv, hafter⟩)
    · exact .inr ⟨v, hv, hreference⟩
  · rintro ((⟨v, hv, hbefore⟩ | ⟨v, hv, hafter⟩) | ⟨v, hv, hreference⟩)
    · exact ⟨v, hv, (hsplit v hv).2 (.inl (.inl hbefore))⟩
    · exact ⟨v, hv, (hsplit v hv).2 (.inl (.inr hafter))⟩
    · exact ⟨v, hv, (hsplit v hv).2 (.inr hreference)⟩

/-- A reference in braces mentions nothing. -/
theorem not_prefix_braced (hplain : ∀ v ∈ tainted, IsPlainKey v) (hbraces : form.braces = true)
    {after : String} : ¬∃ v ∈ tainted, v.toList <+: (form.stripped x ++ after).toList := by
  rintro ⟨v, hv, hstarts⟩
  have hopen : (form.stripped x ++ after).toList = '\x7b' :: (x ++ "\x7d" ++ after).toList := by
    simp [CallForm.stripped, hbraces]
  cases hletters : v.toList with
  | nil => exact (hplain v hv).nonempty (String.toList_eq_nil_iff.1 hletters)
  | cons d ds =>
    rw [hletters, hopen, List.cons_prefix_cons] at hstarts
    exact (hplain v hv).unbraced (by rw [hletters, hstarts.1]; rfl)

/-- A line is reported once it is reached. -/
theorem bind_singleton_ne_nil {α : Type} (line : Except Fault (List Char))
    (place : List Char → Except Fault α) :
    (line >>= fun content => do return [← place content]) ≠ .ok [] := by
  cases line with
  | error fault => intro h; cases h
  | ok content =>
    show (place content >>= fun a => pure [a]) ≠ .ok []
    cases place content <;> intro h <;> cases h

theorem indexedByInput_eq_nil_iff {u : Subscript} :
    indexedByInput script tainted u = .ok [] ↔ mentionsTaint tainted u.index = false := by
  unfold indexedByInput
  split
  · rename_i hmentions
    simp only [hmentions, Bool.true_eq_false, iff_false]
    exact bind_singleton_ne_nil _ _
  · rename_i hmentions
    simp [hmentions]

/-- Two indices at one place get the same verdict if they both mention user input or neither
does. -/
theorem indexedByInput_eq_iff {u : Subscript} {i j : String} :
    indexedByInput script tainted { u with index := i } =
        indexedByInput script tainted { u with index := j } ↔
      mentionsTaint tainted i = mentionsTaint tainted j := by
  have nil (k : String) : indexedByInput script tainted { u with index := k } = .ok [] ↔
      mentionsTaint tainted k = false := indexedByInput_eq_nil_iff
  constructor
  · intro heq
    cases hi : mentionsTaint tainted i with
    | false => exact ((nil j).1 (heq.symm.trans ((nil i).2 hi))).symm
    | true =>
      cases hj : mentionsTaint tainted j with
      | false => exact absurd ((nil i).1 (heq.trans ((nil j).2 hj))) (by simp [hi])
      | true => rfl
  · intro heq
    unfold indexedByInput
    simp only [heq]

end Check

/-- A command name loses its dollar sign and quotes when it is recorded, and keeps its braces. No
command is reported for a name in braces, so it is judged as without them only where that one
is not reported. In an index, a reference in braces mentions no variable: it is judged as without
them unless the reference is what is reported there. -/
theorem braces_hide_variable {x : String} (hx : IsVariableName x) :
    (∀ (form : CallForm) (parse? : String → Option Node) (budget : Nat) (ctx : Walk.Context)
      (n name : Node) (s t : Walk.State) (draft : Walk.Draft), n.RunsVariable name form x →
      (Walk.draftChildren (Walk.follow parse? budget) ctx {} n.children).exec s = (.ok draft, t) →
      t.commands ++
          [{ name := (Scope.qualified? t.scope (form.stripped x)).getD (form.stripped x)
             arguments := n.draft.arguments
             line := n.lineIn ctx
             column := name.columnIn ctx }] <+:
        ((Walk.command (Walk.follow parse? budget) ctx n).exec s).2.commands) ∧
    ∀ (script : Script) (tainted : NameSet), (∀ v ∈ tainted, IsPlainKey v) →
      ∀ bare braced : CallForm, bare.braces = false → braced.braces = true →
      (∀ (assigned : List Assignment) (c : Command),
        Check.runsInput script assigned tainted { c with name := braced.stripped x } = .ok [] ∧
        (Check.runsInput script assigned tainted { c with name := braced.stripped x } =
            Check.runsInput script assigned tainted { c with name := bare.stripped x } ↔
          (Check.taintKey assigned c x ∈ tainted →
            ∃ line, Check.lineOrEmpty script.lines c.line = .ok line ∧
              Check.isExempt c x line = true))) ∧
      ∀ (u : Subscript) (before after : String),
        let indexed (form : CallForm) := Check.indexedByInput script tainted
          { u with index := before ++ ("$" ++ form.stripped x) ++ after }
        (indexed braced = .ok [] ↔ Check.mentionsTaint tainted before = false ∧
          Check.mentionsTaint tainted after = false) ∧
        (indexed braced = indexed bare ↔
          ((∃ v ∈ tainted, v.toList <+: (x ++ after).toList) →
            Check.mentionsTaint tainted before = true ∨
              Check.mentionsTaint tainted after = true)) := by
  refine ⟨fun form parse? budget ctx n name s t draft hruns hdraft => ?_,
    fun script tainted hplain bare braced hbare hbraced =>
      ⟨fun assigned c => ?_, fun u before after => ?_⟩⟩
  · obtain ⟨hname, hcolumn⟩ := hruns.draft hx
    have hnamed : n.draft.name ≠ "" := hname ▸ CallForm.stripped_ne_empty hx
    have hrecorded := Walk.commands_command (Walk.follow_extending parse? budget) ctx hnamed hdraft
    rwa [hname, hcolumn] at hrecorded
  · have hunseen : Check.runsInput script assigned tainted { c with name := braced.stripped x } =
        .ok [] :=
      (Check.runsInput_stripped hx rfl).2 fun hkey =>
        absurd hkey (Check.taintKey_braced hplain hbraced)
    have hstripped : bare.stripped x = x := by simp [CallForm.stripped, hbare]
    refine ⟨hunseen, ?_⟩
    rw [hunseen, eq_comm, Check.runsInput_stripped hx rfl, hstripped]
    exact Iff.rfl
  · intro indexed
    have hstripped : bare.stripped x = x := by simp [CallForm.stripped, hbare]
    have hmentions := Check.mentionsTaint_reference braced hx hplain before after
    have hbaremention := Check.mentionsTaint_reference bare hx hplain before after
    rw [or_iff_left (Check.not_prefix_braced hplain hbraced)] at hmentions
    constructor
    · rw [Check.indexedByInput_eq_nil_iff, ← Bool.not_eq_true, hmentions, not_or]
      simp
    · rw [Check.indexedByInput_eq_iff, Bool.eq_iff_iff, hmentions, hbaremention, hstripped]
      exact ⟨fun halike hreference => halike.2 (.inr hreference),
        fun hreference => ⟨.inl, fun hbare => hbare.elim id hreference⟩⟩

/-- The command `"${x}" a` and its name. -/
def quotedName : Node :=
  ⟨.commandName, some "\"$\x7bx\x7d\"", 0, 0, 6, [⟨.string, some "\"$\x7bx\x7d\"", 0, 0, 6, []⟩]⟩

def quotedCall : Node :=
  ⟨.command, some "\"$\x7bx\x7d\" a", 0, 0, 8, [quotedName, ⟨.word, some "a", 0, 7, 8, []⟩]⟩

/-- The quotes come off, and what is left is not what an assignment to `x` taints. -/
theorem braces_hide_variable_quoted :
    let tainted : NameSet := ⟨["x"], by decide⟩
    let script : Script := .ofText "a[$x+1]=0"
    let index (form : CallForm) : Subscript := ⟨"a", "$" ++ form.stripped "x" ++ "+1", 1, 0⟩
    quotedCall.RunsVariable quotedName ⟨true, true⟩ "x" ∧
      [⟨"\x7bx\x7d", ["a"], 0, 0⟩] <+:
        ((Walk.command (Walk.follow (fun _ => none) 0) {} quotedCall).exec {}).2.commands ∧
      Check.runsInput script [] tainted ⟨"\x7bx\x7d", ["a"], 0, 0⟩ = .ok [] ∧
      Check.indexedByInput script tainted (index ⟨true, false⟩) = .ok [] ∧
      Check.indexedByInput script tainted (index ⟨true, false⟩) ≠
        Check.indexedByInput script tainted (index ⟨false, false⟩) := by
  intro tainted script index
  have hx : IsVariableName "x" := by
    refine ⟨by decide, fun hc => .inl ?_⟩
    rw [List.mem_singleton.1 hc]
    decide
  have hplain : ∀ v ∈ tainted, IsPlainKey v := by
    intro v hv
    rw [List.mem_singleton.1 hv]
    exact ⟨by decide, by decide, by decide⟩
  have hruns : quotedCall.RunsVariable quotedName ⟨true, true⟩ "x" :=
    ⟨rfl, rfl, ⟨[], [_], rfl, by decide⟩, rfl⟩
  have hdraft : (Walk.draftChildren (Walk.follow (fun _ => none) 0) {} {}
      quotedCall.children).exec {} = (.ok quotedCall.draft, {}) := rfl
  obtain ⟨hrecorded, hjudged⟩ := braces_hide_variable hx
  obtain ⟨hcommands, hindices⟩ := hjudged script tainted hplain ⟨false, false⟩ ⟨true, false⟩ rfl rfl
  obtain ⟨hnone, halike⟩ := hindices ⟨"a", "", 1, 0⟩ "" "+1"
  refine ⟨hruns, hrecorded _ _ _ _ _ _ _ _ _ hruns hdraft, (hcommands [] ⟨"", ["a"], 0, 0⟩).1,
    hnone.2 (by decide), fun heq => ?_⟩
  rcases halike.1 heq ⟨"x", by decide, by decide⟩ with hbefore | hafter
  · exact absurd hbefore (by decide)
  · exact absurd hafter (by decide)

/-- A script that assigns user input to `x` and then runs it, with the tree of the reference. -/
def callingScript (reference : String) (tree : Tree) : String × Tree :=
  ("x=$1;" ++ reference ++ " a",
    ⟨.program, 0, tree.stop + 2,
      [Walk.assignmentTree (Walk.variableTree 0 1) (Walk.expansionTree 2 1),
        ⟨.command, 5, tree.stop + 2,
          [⟨.commandName, 5, tree.stop, [tree]⟩, ⟨.word, tree.stop + 1, tree.stop + 2, []⟩]⟩]⟩)

def bareCall : String × Tree := callingScript "$x" (Walk.expansionTree 5 1)

def bracedCall : String × Tree :=
  callingScript "$\x7bx\x7d"
    ⟨.expansion, 5, 9,
      [⟨.other "$\x7b", 5, 7, []⟩, ⟨.variableName, 7, 8, []⟩, ⟨.other "\x7d", 8, 9, []⟩]⟩

/-- The names of the commands that are recorded for a script, each with the number of findings. -/
def callVerdicts (script : String × Tree) : List (String × Except Fault Nat) :=
  let survey := ((Walk.script ⟨[(script.1, some script.2)]⟩ script.1).exec {}).2.toSurvey
  survey.commands.map fun c =>
    (c.name, (Check.runsInput (.ofText script.1) survey.assigned survey.tainted c).map List.length)

/-- The number of findings for an index in a script where `x` is tainted. -/
def indexVerdict (index : String) : Except Fault Nat :=
  (Check.indexedByInput (.ofText ("a[" ++ index ++ "]=1")) ⟨["x"], by decide⟩
    ⟨"a", index, 1, 0⟩).map List.length

/-- The same call and the same index are reported without braces and not with them. -/
theorem braced_call_and_index_unseen :
    callVerdicts bareCall = [("x", .ok 1)] ∧ callVerdicts bracedCall = [("\x7bx\x7d", .ok 0)] ∧
      indexVerdict "$x" = .ok 1 ∧ indexVerdict "$\x7bx\x7d" = .ok 0 := by
  decide +kernel

end ShellAudit
