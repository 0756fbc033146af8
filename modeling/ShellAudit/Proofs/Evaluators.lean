-- SUMMARY: `eval` and `source` are reported exactly where their first argument is a tainted variable and nothing else.
import ShellAudit.Proofs.BracedNames

/-!
# Commands that run their argument

Of the arguments of `eval` and `source` only the first is judged, and it is judged as a whole:
quotes around it and dollar signs before it come off, and what is left is looked up among the
tainted names. So a tainted variable is found where it is all of the first argument. In a longer
text, in braces and in a later argument it reaches the command unseen.
-/

namespace ShellAudit

namespace Text

/-- What is taken off both ends of a text are characters that are to come off. -/
theorem trim_spec (p : Char → Bool) (s : List Char) : ∃ front back,
    s = front ++ trim p s ++ back ∧ (∀ c ∈ front, p c = true) ∧ ∀ c ∈ back, p c = true := by
  have taken (t : List Char) : ∀ c ∈ t.takeWhile p, p c = true :=
    fun c hc => List.all_eq_true.1 List.all_takeWhile c hc
  have hback : s.dropWhile p = trim p s ++ ((s.dropWhile p).reverse.takeWhile p).reverse := by
    rw [trim, trimEnd, ← List.reverse_append, List.takeWhile_append_dropWhile, List.reverse_reverse]
  refine ⟨s.takeWhile p, ((s.dropWhile p).reverse.takeWhile p).reverse, ?_, taken s,
    fun c hc => taken _ c (List.mem_reverse.1 hc)⟩
  rw [List.append_assoc, ← hback, List.takeWhile_append_dropWhile]

end Text

namespace Check

/-! ## Arguments -/

/-- The characters that come off the ends of an argument. -/
def isQuote (c : Char) : Bool := c = '"' || c = '\x27'

/-- An argument that is a name and nothing else: quotes may stand around it, and dollar signs
before it. -/
structure Bare (argument name : String) : Prop where
  spelled : ∃ front dollars back, argument.toList = front ++ dollars ++ name.toList ++ back ∧
    (∀ c ∈ front, isQuote c = true) ∧ (∀ c ∈ dollars, c = '$') ∧ ∀ c ∈ back, isQuote c = true
  unquoted {c : Char} : c ∈ name.toList → isQuote c = false
  undollared : '$' ∉ name.toList

/-- An argument that holds the expansion of a variable, with braces or without. -/
def Mentions (argument : String) (braces : Bool) (x : String) : Prop :=
  ∃ before after : String,
    argument = before ++ ("$" ++ CallForm.stripped ⟨braces, false⟩ x) ++ after ∧
    (braces = false → ∀ d ∈ after.toList.head?, ¬(d.isAlphanum = true ∨ d = '_'))

theorem Bare.stripName_eq {argument name : String} (h : Bare argument name) :
    stripName argument = name := by
  obtain ⟨front, dollars, back, hargument, hfront, hdollars, hback⟩ := h.spelled
  have hkept : ∀ c ∈ dollars ++ name.toList, isQuote c = false := by
    intro c hc
    rcases List.mem_append.1 hc with hdollar | hname
    · rw [hdollars c hdollar]
      rfl
    · exact h.unquoted hname
  have htrimmed : Text.trim isQuote argument.toList = dollars ++ name.toList := by
    rw [hargument, List.append_assoc front]
    exact Text.trim_between hfront hkept hback
  have hdropped : (dollars ++ name.toList).dropWhile (· = '$') = name.toList := by
    rw [List.dropWhile_append,
      List.dropWhile_eq_nil_iff.2 fun c hc => decide_eq_true (hdollars c hc)]
    cases hname : name.toList with
    | nil => rfl
    | cons d ds =>
      have hd : d ≠ '$' := fun heq => h.undollared (hname ▸ heq ▸ List.mem_cons_self)
      simp [hd]
  show String.ofList ((Text.trim isQuote argument.toList).dropWhile (· = '$')) = name
  rw [htrimmed, hdropped, String.ofList_toList]

/-- What is looked up for an argument is all of it, unless quotes and dollar signs are left. -/
theorem bare_stripName {argument : String}
    (hunquoted : ∀ c ∈ (stripName argument).toList, isQuote c = false)
    (hundollared : '$' ∉ (stripName argument).toList) : Bare argument (stripName argument) := by
  obtain ⟨front, back, hargument, hfront, hback⟩ := Text.trim_spec isQuote argument.toList
  refine ⟨⟨front, (Text.trim isQuote argument.toList).takeWhile (· = '$'), back, ?_, hfront,
    fun c hc => ?_, hback⟩, fun hc => hunquoted _ hc, hundollared⟩
  · have hname : (stripName argument).toList =
        (Text.trim isQuote argument.toList).dropWhile (· = '$') := String.toList_ofList
    rw [hname, List.append_assoc front, List.takeWhile_append_dropWhile]
    exact hargument
  · exact of_decide_eq_true (List.all_eq_true.1 List.all_takeWhile c hc)

/-- Where a dollar sign has neither a quote nor a dollar sign behind it, it is the last one, and
the name and the closing quotes follow. -/
theorem Bare.behind_dollar {argument name : String} (h : Bare argument name)
    {before tail : List Char} {d : Char} (hargument : argument.toList = before ++ '$' :: d :: tail)
    (hquote : isQuote d = false) (hdollar : d ≠ '$') :
    ∃ back, d :: tail = name.toList ++ back ∧ ∀ c ∈ back, isQuote c = true := by
  obtain ⟨front, dollars, back, hspelled, hfront, hdollars, hback⟩ := h.spelled
  have hbehind : '$' ∉ name.toList ++ back := by
    intro hmem
    rcases List.mem_append.1 hmem with hname | hmem
    · exact h.undollared hname
    · exact absurd (hback _ hmem) (by decide)
  rw [hargument, List.append_assoc] at hspelled
  rcases List.append_eq_append_iff.1 hspelled with
    ⟨between, hbetween, hrest⟩ | ⟨between, -, hrest⟩
  · -- The name starts behind `before`, with `between` in between.
    rcases between with _ | ⟨e, between⟩
    · rw [List.nil_append] at hrest
      exact absurd (hrest ▸ List.mem_cons_self) hbehind
    rw [List.cons_append, List.cons.injEq] at hrest
    rcases between with _ | ⟨e', between⟩
    · exact ⟨back, hrest.2, hback⟩
    · obtain ⟨rfl, -⟩ := List.cons.inj hrest.2
      have hmem : d ∈ front ++ dollars := by
        rw [hbetween]
        simp
      rcases List.mem_append.1 hmem with hmem | hmem
      · exact absurd (hfront d hmem) (by simp [hquote])
      · exact absurd (hdollars d hmem) hdollar
  · exact absurd (hrest ▸ List.mem_append_right between List.mem_cons_self) hbehind

/-- Behind a dollar sign with a brace, the brace is the start of the name. -/
theorem Bare.head?_of_brace {argument name : String} (h : Bare argument name)
    {before tail : List Char} (hargument : argument.toList = before ++ '$' :: '\x7b' :: tail) :
    name.toList.head? = some '\x7b' := by
  obtain ⟨back, hbehind, hback⟩ := h.behind_dollar hargument (by decide) (by decide)
  cases hname : name.toList with
  | nil =>
    rw [hname, List.nil_append] at hbehind
    exact absurd (hback _ (hbehind ▸ List.mem_cons_self)) (by decide)
  | cons d ds =>
    rw [hname, List.cons_append, List.cons.injEq] at hbehind
    rw [← hbehind.1]
    rfl

theorem isQuote_eq_false {x : String} (hx : IsVariableName x) {d : Char}
    (hd : d ∈ x.toList) : isQuote d = false := by
  simp only [isQuote, Bool.or_eq_false_iff, decide_eq_false_iff_not]
  refine ⟨?_, ?_⟩ <;> rintro rfl <;> exact hx.not_mem (by decide) hd

/-- Behind a dollar sign with a variable, the name starts with the variable, and what more it has
follows the variable in the argument. -/
theorem Bare.starts_with_variable {argument name x : String} (h : Bare argument name)
    (hx : IsVariableName x) {before after : List Char}
    (hargument : argument.toList = before ++ '$' :: (x.toList ++ after)) :
    ∃ more, name.toList = x.toList ++ more ∧ more <+: after := by
  obtain ⟨back, hbehind, hback⟩ : ∃ back, x.toList ++ after = name.toList ++ back ∧
      ∀ c ∈ back, isQuote c = true := by
    cases hletters : x.toList with
    | nil => exact absurd (String.toList_eq_nil_iff.1 hletters) hx.nonempty
    | cons d ds =>
      have hd : d ∈ x.toList := hletters ▸ List.mem_cons_self
      have hdollar : d ≠ '$' := by
        rintro rfl
        exact hx.not_mem (by decide) hd
      rw [hletters] at hargument
      exact h.behind_dollar hargument (isQuote_eq_false hx hd) hdollar
  rcases List.append_eq_append_iff.1 hbehind with ⟨more, hname, hafter⟩ | ⟨more, hletters, hquotes⟩
  · exact ⟨more, hname, hafter ▸ List.prefix_append more back⟩
  · rcases more with _ | ⟨d, more⟩
    · rw [List.append_nil] at hletters
      exact ⟨[], by rw [List.append_nil, hletters], List.nil_prefix⟩
    · have hd : d ∈ x.toList := hletters ▸ List.mem_append_right _ List.mem_cons_self
      have hquote := hback d (hquotes ▸ List.mem_cons_self)
      exact absurd hquote (by simp [isQuote_eq_false hx hd])

/-! ## Names that are looked up -/

/-- A tainted name that no argument hides by its quotes. -/
structure IsBareKey (v : String) : Prop extends IsPlainKey v where
  unquoted {c : Char} : c ∈ v.toList → isQuote c = false

/-- No name of the set goes on behind `x`, unless with more characters of a name. -/
def NotContinued (tainted : NameSet) (x : String) : Prop :=
  ∀ v ∈ tainted, ∀ d rest, v.toList = x.toList ++ d :: rest → d.isAlphanum = true ∨ d = '_'

section

variable {script : Script} {assigned : List Assignment} {tainted : NameSet} {c : Command}

theorem toList_taintKey (assigned : List Assignment) (c : Command) (name : String) :
    ∃ rest, (taintKey assigned c name).toList = name.toList ++ rest := by
  unfold taintKey
  split
  · exact ⟨"_cmd_ctx_".toList ++ (toString c.line).toList, by simp [Walk.commandKey]⟩
  · exact ⟨[], (List.append_nil _).symm⟩

theorem IsBareKey.bare {argument : String}
    (h : IsBareKey (taintKey assigned c (stripName argument))) :
    Bare argument (stripName argument) := by
  obtain ⟨rest, hrest⟩ := toList_taintKey assigned c (stripName argument)
  refine bare_stripName (fun d hd => h.unquoted ?_) fun hd => h.undollared ?_
  · exact hrest ▸ List.mem_append_left rest hd
  · exact hrest ▸ List.mem_append_left rest hd

/-- A tainted name that an argument is and a variable that it mentions are the same. -/
theorem eq_of_mentions {argument name x : String} {braces : Bool} (hx : IsVariableName x)
    (hcontinued : NotContinued tainted x) (hmentions : Mentions argument braces x)
    (hbare : Bare argument name) (hkey : taintKey assigned c name ∈ tainted)
    (hplain : IsPlainKey (taintKey assigned c name)) : braces = false ∧ name = x := by
  obtain ⟨before, after, hargument, hafter⟩ := hmentions
  obtain ⟨rest, hrest⟩ := toList_taintKey assigned c name
  cases braces with
  | true =>
    have hspelled : argument.toList =
        before.toList ++ '$' :: '\x7b' :: (x.toList ++ '\x7d' :: after.toList) := by
      simp [hargument, CallForm.stripped]
    refine absurd ?_ hplain.unbraced
    rw [hrest, List.head?_append, hbare.head?_of_brace hspelled]
    rfl
  | false =>
    have hspelled : argument.toList = before.toList ++ '$' :: (x.toList ++ after.toList) := by
      simp [hargument, CallForm.stripped]
    obtain ⟨more, hname, hmore⟩ := hbare.starts_with_variable hx hspelled
    refine ⟨rfl, ?_⟩
    cases more with
    | nil => exact String.toList_inj.1 (hname.trans (List.append_nil _))
    | cons d more =>
      -- What follows the variable in the argument is no character of a name.
      have hlonger : (taintKey assigned c name).toList = x.toList ++ d :: (more ++ rest) := by
        rw [hrest, hname, List.append_assoc, List.cons_append]
      obtain ⟨last, hlast⟩ := hmore
      have hhead : after.toList.head? = some d := by
        rw [← hlast]
        rfl
      exact absurd (hcontinued _ hkey d (more ++ rest) hlonger) (hafter rfl d hhead)

/-! ## Verdicts -/

/-- The finding for a command that runs user input, in its line. -/
def evaluation (script : Script) (c : Command) (line : List Char) : Finding :=
  { category := .commandInjection
    severity := .critical
    description := Wording.evalSource
    file := script.path
    line := c.line + 1
    column := some (c.column + 1)
    content := some (String.ofList line)
    recommendation := some Wording.avoidEval }

theorem evaluatesInput_ne_nil_iff (hname : evaluators.contains (Scope.baseName c.name) = true) :
    evaluatesInput script assigned tainted c ≠ .ok [] ↔
      ∃ first ∈ c.arguments.head?, taintKey assigned c (stripName first) ∈ tainted := by
  unfold evaluatesInput
  split
  · rename_i hnone
    simp [hnone]
  · rename_i first rest harguments
    rw [harguments, List.head?_cons]
    split
    · rename_i hkey
      exact iff_of_true (bind_singleton_ne_nil _ _) ⟨first, rfl, hkey.2⟩
    · rename_i hkey
      refine iff_of_false (fun h => h rfl) ?_
      rintro ⟨_, hfirst, htainted⟩
      cases hfirst
      exact hkey ⟨hname, htainted⟩

theorem evaluatesInput_of_ne_nil (h : evaluatesInput script assigned tainted c ≠ .ok [])
    (hline : 0 ≤ c.line) {line : List Char} (hread : lineAt script.lines c.line = .ok line) :
    evaluatesInput script assigned tainted c = .ok [evaluation script c line] := by
  have hplaced : c.line ≠ -1 := by omega
  unfold evaluatesInput at h ⊢
  split
  · rename_i hnone
    simp [hnone] at h
  · rename_i first rest harguments
    simp only [harguments] at h
    split at h
    · rename_i hkey
      rw [if_pos hkey, hread]
      simp only [bind, Except.bind, Finding.place, if_neg hplaced]
      rfl
    · exact absurd rfl h

end

/-- A command that runs its argument is reported exactly if its first argument is a tainted name
and nothing else; the finding is critical and stands at the command. The other arguments do not
matter. So a tainted variable that the first argument mentions is found exactly where it has no
braces and is all of the argument. -/
theorem evaluated_iff_bare {script : Script} {assigned : List Assignment} {tainted : NameSet}
    (hkeys : ∀ v ∈ tainted, IsBareKey v) {c : Command}
    (hname : evaluators.contains (Scope.baseName c.name) = true) :
    let verdict (arguments : List String) :=
      evaluatesInput script assigned tainted { c with arguments := arguments }
    (∀ arguments, verdict arguments ≠ .ok [] ↔
      ∃ first ∈ arguments.head?, ∃ name, Bare first name ∧ taintKey assigned c name ∈ tainted) ∧
    (∀ arguments line, 0 ≤ c.line → lineAt script.lines c.line = .ok line →
      verdict arguments ≠ .ok [] → verdict arguments = .ok [evaluation script c line]) ∧
    (∀ first rest, verdict (first :: rest) = verdict [first]) ∧
    ∀ x, IsVariableName x → x ∈ tainted → isAssignedFor assigned c x = false →
      NotContinued tainted x → ∀ first rest braces, Mentions first braces x →
        (verdict (first :: rest) ≠ .ok [] ↔ braces = false ∧ Bare first x) := by
  intro verdict
  have hverdict (arguments : List String) : verdict arguments ≠ .ok [] ↔
      ∃ first ∈ arguments.head?, ∃ name, Bare first name ∧ taintKey assigned c name ∈ tainted := by
    rw [evaluatesInput_ne_nil_iff (c := { c with arguments := arguments }) hname]
    constructor
    · rintro ⟨first, hfirst, hkey⟩
      exact ⟨first, hfirst, stripName first, (hkeys _ hkey).bare, hkey⟩
    · rintro ⟨first, hfirst, name, hbare, hkey⟩
      exact ⟨first, hfirst, hbare.stripName_eq.symm ▸ hkey⟩
  refine ⟨hverdict, fun arguments line hline hread hreported => ?_, fun first rest => rfl,
    fun x hx htainted hassigned hcontinued first rest braces hmentions => ?_⟩
  · exact evaluatesInput_of_ne_nil hreported hline hread
  · rw [hverdict]
    constructor
    · rintro ⟨_, hfirst, name, hbare, hkey⟩
      cases hfirst
      obtain ⟨hbraces, rfl⟩ :=
        eq_of_mentions hx hcontinued hmentions hbare hkey (hkeys _ hkey).toIsPlainKey
      exact ⟨hbraces, hbare⟩
    · rintro ⟨-, hbare⟩
      have hkey : taintKey assigned c x = x := by simp [taintKey, hassigned]
      exact ⟨first, rfl, x, hbare, hkey.symm ▸ htainted⟩

/-- The variable is found between quotes, and not behind a word between the same quotes. -/
theorem evaluated_iff_bare_quoted :
    let tainted : NameSet := ⟨["x", "f.y"], by decide⟩
    let script : Script := .ofText "eval '$x' a\neval \"a $x\""
    let verdict (line : Int) (arguments : List String) :=
      evaluatesInput script [] tainted ⟨"eval", arguments, line, 0⟩
    verdict 0 ["'$x'", "a"] =
        .ok [evaluation script ⟨"eval", ["'$x'", "a"], 0, 0⟩ "eval '$x' a".toList] ∧
      Mentions "\"a $x\"" false "x" ∧ verdict 1 ["\"a $x\"", "$x"] = .ok [] := by
  intro tainted script verdict
  have hkeys : ∀ v ∈ tainted, IsBareKey v := by
    have bare {v : String} (hplain : IsPlainKey v) (h : v.toList.all (!isQuote ·) = true) :
        IsBareKey v := ⟨hplain, fun hc => by simpa using List.all_eq_true.1 h _ hc⟩
    intro v hv
    rcases List.mem_cons.1 hv with rfl | hv
    · exact bare ⟨by decide, by decide, by decide⟩ (by decide)
    · rw [List.mem_singleton.1 hv]
      exact bare ⟨by decide, by decide, by decide⟩ (by decide)
  have hx : IsVariableName "x" := by
    refine ⟨by decide, fun hc => .inl ?_⟩
    rw [List.mem_singleton.1 hc]
    decide
  have hcontinued : NotContinued tainted "x" := by
    intro v hv d rest hspelled
    rcases List.mem_cons.1 hv with rfl | hv
    · cases hspelled
    · rw [List.mem_singleton.1 hv] at hspelled
      cases hspelled
  have hquoted : Mentions "'$x'" false "x" := by
    refine ⟨"'", "'", by decide, fun _ d hd => ?_⟩
    cases hd
    decide
  have hbehind : Mentions "\"a $x\"" false "x" := by
    refine ⟨"\"a ", "\"", by decide, fun _ d hd => ?_⟩
    cases hd
    decide
  have hbare : Bare "'$x'" "x" :=
    ⟨⟨['\x27'], ['$'], ['\x27'], by decide, List.forall_mem_singleton.2 rfl,
        List.forall_mem_singleton.2 rfl, List.forall_mem_singleton.2 rfl⟩,
      fun hc => by rw [List.mem_singleton.1 hc]; rfl, by decide⟩
  have hlonger : ¬Bare "\"a $x\"" "x" := fun h => absurd h.stripName_eq (by decide +kernel)
  have hname : evaluators.contains (Scope.baseName "eval") = true := by decide +kernel
  obtain ⟨-, hfinding, -, hfirst⟩ :=
    @evaluated_iff_bare script [] tainted hkeys ⟨"eval", [], 0, 0⟩ hname
  obtain ⟨-, -, -, hsecond⟩ :=
    @evaluated_iff_bare script [] tainted hkeys ⟨"eval", [], 1, 0⟩ hname
  have hreported := (hfirst "x" hx (by decide) rfl hcontinued _ ["a"] _ hquoted).2 ⟨rfl, hbare⟩
  have hunseen := hsecond "x" hx (by decide) rfl hcontinued _ ["$x"] _ hbehind
  refine ⟨hfinding _ _ (by decide) (by decide +kernel) hreported, hbehind, ?_⟩
  exact Classical.not_not.1 fun hseen => hlonger (hunseen.1 hseen).2

/-- The number of findings for `eval` alone in a script where `x` is tainted. -/
def evalVerdict (text : String) (arguments : List String) : Except Fault Nat :=
  (evaluatesInput (.ofText ("eval " ++ text)) [] ((∅ : NameSet).insert "x")
    ⟨"eval", arguments, 0, 0⟩).map List.length

/-- The variable is reported alone, and not in a longer text, behind a word or in braces. -/
theorem evaluated_input_unseen :
    evalVerdict "$x" ["$x"] = .ok 1 ∧ evalVerdict "\"echo $x\"" ["\"echo $x\""] = .ok 0 ∧
      evalVerdict "echo $x" ["echo", "$x"] = .ok 0 ∧
      evalVerdict "$\x7bx\x7d" ["$\x7bx\x7d"] = .ok 0 := by
  decide +kernel

end Check

end ShellAudit
