-- SUMMARY: More tainted names hide no command injection.
import ShellAudit.Audit

/-!
# More taint, more findings

The check for command injection looks a name up among the tainted ones and, if it is
there, makes a finding that does not depend on what else is tainted. So with more tainted
names it finds what it found before, in the same order, and perhaps more in between. The
shell that tests are probed with has to be a function of the text that it is given.
-/

namespace ShellAudit

/-- Wherever the second gives something, the first gives something that `Q` relates to it. -/
def Within {α β : Type} (Q : α → β → Prop) (x : Except Fault α) (y : Except Fault β) : Prop :=
  ∀ b, y = .ok b → ∃ a, x = .ok a ∧ Q a b

namespace Within

variable {α β γ δ ι : Type} {Q : α → β → Prop} {R : γ → δ → Prop}

theorem pure {a : α} {b : β} (h : Q a b) : Within Q (.ok a) (.ok b) := by
  intro b' hb
  cases hb
  exact ⟨a, rfl, h⟩

theorem refl (x : Except Fault (List α)) : Within List.Sublist x x :=
  fun xs hxs => ⟨xs, hxs, List.Sublist.refl xs⟩

/-- Nothing at all is within every list. -/
theorem nothing (y : Except Fault (List β)) : Within List.Sublist (.ok []) y :=
  fun ys _ => ⟨[], rfl, List.nil_sublist ys⟩

theorem bind {x : Except Fault α} {y : Except Fault β} {next : α → Except Fault γ}
    {next' : β → Except Fault δ} (h : Within Q x y)
    (hnext : ∀ a b, Q a b → Within R (next a) (next' b)) :
    Within R (x >>= next) (y >>= next') := by
  intro d hd
  cases y with
  | error fault => cases hd
  | ok b =>
    obtain ⟨a, rfl, hab⟩ := h b rfl
    exact hnext a b hab d hd

/-- A list that is made under a condition is within one that is made under a weaker one. -/
theorem ite {p p' : Prop} [Decidable p] [Decidable p'] (h : p → p')
    (x : Except Fault (List α)) :
    Within List.Sublist (if p then x else .ok []) (if p' then x else .ok []) := by
  by_cases hp : p
  · rw [if_pos hp, if_pos (h hp)]
    exact refl x
  · rw [if_neg hp]
    exact nothing _

/-- What holds of the lists for single elements holds of all of them put together. -/
theorem mapM {f g : ι → Except Fault (List α)} (l : List ι)
    (h : ∀ i, Within List.Sublist (f i) (g i)) :
    Within (fun xss yss => xss.flatten.Sublist yss.flatten) (l.mapM f) (l.mapM g) := by
  induction l with
  | nil => exact pure (List.Sublist.refl [])
  | cons i l ih =>
    rw [List.mapM_cons, List.mapM_cons]
    apply (h i).bind
    intro xs ys hxs
    apply ih.bind
    intro xss yss hxss
    exact pure (List.Sublist.append hxs hxss)

end Within

namespace NameSet

theorem insertAll_mono {s t : NameSet} (h : s ⊆ t) (ns : List String) :
    s.insertAll ns ⊆ t.insertAll ns := by
  intro n hn
  rw [mem_insertAll] at hn ⊢
  exact hn.imp_left (h n)

end NameSet

/-! ## Outside programs as functions -/

/-- What a check gives if the outside programs are functions of what they are given. -/
def outcome {α : Type} (x : ExceptT Fault Id α) : Except Fault α := x.run

theorem outcome_bind {α β : Type} (x : ExceptT Fault Id α) (next : α → ExceptT Fault Id β) :
    outcome (x >>= next) = outcome x >>= fun a => outcome (next a) := by
  show ((x >>= next).run : Except Fault β) = _
  rw [ExceptT.run_bind]
  unfold outcome
  cases x.run <;> rfl

theorem outcome_mapM {α β : Type} (f : α → ExceptT Fault Id β) (l : List α) :
    outcome (l.mapM f) = l.mapM fun a => outcome (f a) := by
  induction l with
  | nil => rfl
  | cons a l ih =>
    simp only [List.mapM_cons, outcome_bind, ih]
    rfl

namespace Check

variable {tainted tainted' : NameSet} (h : tainted ⊆ tainted')

include h

/-! ## Single checks -/

theorem runByCommand_within (script : Script) (assigned : List Assignment) (c : Command) :
    Within List.Sublist (runByCommand script assigned tainted c)
      (runByCommand script assigned tainted' c) := by
  have runs : Within List.Sublist (runsInput script assigned tainted c)
      (runsInput script assigned tainted' c) :=
    .ite (Or.imp_right (h _)) _
  have evaluates : Within List.Sublist (evaluatesInput script assigned tainted c)
      (evaluatesInput script assigned tainted' c) := by
    unfold evaluatesInput
    cases c.arguments with
    | nil => exact .refl _
    | cons argument rest => exact .ite (And.imp_right (h _)) _
  apply runs.bind
  intro fs fs' hfs
  apply evaluates.bind
  intro gs gs' hgs
  exact .pure (List.Sublist.append hfs hgs)

theorem mentionsTaint_mono {index : String} (hindex : mentionsTaint tainted index = true) :
    mentionsTaint tainted' index = true := by
  unfold mentionsTaint at hindex ⊢
  obtain ⟨name, hname, hmentions⟩ := List.any_eq_true.1 hindex
  exact List.any_eq_true.2 ⟨name, h name hname, hmentions⟩

theorem indexedByInput_within (script : Script) (s : Subscript) :
    Within List.Sublist (indexedByInput script tainted s) (indexedByInput script tainted' s) :=
  .ite (mentionsTaint_mono h) _

theorem declaresInput_within (script : Script) (p : Pair) :
    Within List.Sublist (declaresInput script tainted p) (declaresInput script tainted' p) :=
  .ite (Or.imp (h _) (h _)) _

/-- A test is probed whatever else is tainted, and the shell answers as before. -/
theorem evaluatedByTest_within (shell : String → Id Transcript) (script : Script)
    (i : Injectable) :
    Within List.Sublist (outcome (evaluatedByTest shell script tainted i))
      (outcome (evaluatedByTest shell script tainted' i)) := by
  unfold evaluatedByTest
  by_cases hi : i.name ∈ tainted
  · rw [if_pos hi, if_pos (h _ hi)]
    exact .refl _
  · rw [if_neg hi]
    exact .nothing _

/-! ## The whole check -/

theorem evaluatedByTests_within (shell : String → Id Transcript) (script : Script)
    (injectable : List Injectable) :
    Within List.Sublist (outcome (evaluatedByTests shell script tainted injectable))
      (outcome (evaluatedByTests shell script tainted' injectable)) := by
  unfold evaluatedByTests
  rw [outcome_bind, outcome_bind, outcome_mapM, outcome_mapM]
  apply (Within.mapM injectable fun i => evaluatedByTest_within h shell script i).bind
  intro fss fss' hfss
  exact .pure hfss

theorem injection_within (shell : String → Id Transcript) (script : Script) (survey : Survey) :
    Within List.Sublist (outcome (injection shell script survey tainted))
      (outcome (injection shell script survey tainted')) := by
  unfold injection
  simp only [outcome_bind]
  apply (Within.mapM survey.commands (runByCommand_within h script survey.assigned)).bind
  intro commands commands' hcommands
  apply (Within.mapM survey.subscripts (indexedByInput_within h script)).bind
  intro indices indices' hindices
  apply (evaluatedByTests_within h shell script survey.injectable).bind
  intro tests tests' htests
  apply (Within.mapM survey.pairs (declaresInput_within h script)).bind
  intro pairs pairs' hpairs
  exact .pure (((hcommands.append hindices).append htests).append hpairs)

end Check

namespace Audit

@[simp] theorem exec_modify (f : Desk → Desk) (desk : Desk) :
    (modify f : Audit Id Unit).exec desk = (.ok (), f desk) := rfl

@[simp] theorem exec_get (desk : Desk) : (get : Audit Id Desk).exec desk = (.ok desk, desk) := rfl

@[simp] theorem exec_liftTool {α : Type} (x : Id α) (desk : Desk) :
    (liftTool x : Audit Id α).exec desk = (.ok x, desk) := rfl

@[simp] theorem exec_liftExcept {α : Type} (x : Except Fault α) (desk : Desk) :
    (liftExcept x : Audit Id α).exec desk = (x, desk) := rfl

theorem exec_bind {α β : Type} (step : Audit Id α) (next : α → Audit Id β) (desk : Desk) :
    (step >>= next).exec desk =
      match step.exec desk with
      | (.ok a, desk) => (next a).exec desk
      | (.error fault, desk) => (.error fault, desk) := by
  simp only [exec, ExceptT.run_bind, StateT.run_bind]
  rcases (ExceptT.run step).run desk with ⟨_ | _, _⟩ <;> rfl

/-- The stage runs the check with the positional parameters among the tainted names. -/
theorem exec_injection (tools : Tools Id) (script : Script) (survey : Survey)
    (tainted : NameSet) :
    ((runStage tools script .injection).exec
      { survey := { survey with tainted := tainted } }).1 =
      outcome (Check.injection tools.shell script survey (Check.withParameters tainted)) := by
  have hsurvey : Check.injection tools.shell script
      { survey with tainted := Check.withParameters tainted } (Check.withParameters tainted) =
      Check.injection tools.shell script survey (Check.withParameters tainted) := by
    simp only [Check.injection]
  simp only [runStage, exec_bind, exec_modify, exec_get, exec_liftTool, exec_liftExcept, hsurvey,
    outcome]

/-- Where the check for command injection returns with more tainted names, it returns with
fewer, and what it finds with fewer is found with more, in the same order. -/
theorem injection_findings_mono (tools : Tools Id) (script : Script) (survey : Survey)
    {tainted tainted' : NameSet} (h : tainted ⊆ tainted') {found' : List Finding}
    (hfound' : ((runStage tools script .injection).exec
      { survey := { survey with tainted := tainted' } }).1 = .ok found') :
    ∃ found, ((runStage tools script .injection).exec
      { survey := { survey with tainted := tainted } }).1 = .ok found ∧
        found.Sublist found' := by
  rw [exec_injection] at hfound' ⊢
  have hparameters : Check.withParameters tainted ⊆ Check.withParameters tainted' :=
    NameSet.insertAll_mono h _
  exact Check.injection_within hparameters tools.shell script survey found' hfound'

/-- A script that runs, indexes, tests and declares by variables. -/
def venturing : Script :=
  .ofText "eval $x\necho $\x7ba[$y]\x7d\n[[ $z -eq 1 ]]\ndeclare \"$z\"=\"$x\"\n$1 -l"

/-- What is recorded about it. -/
def venturingSurvey : Survey where
  commands := [⟨"eval", ["$x"], 0, 0⟩, ⟨"$1", ["-l"], 4, 0⟩]
  subscripts := [⟨"a", "$y", 2, 5⟩]
  injectable := [⟨"z", 2, 3, "[["⟩]
  pairs := [⟨"z", "x", 3, 8⟩]

/-- A shell that evaluates the operand of every test. -/
def gullible : Tools Id where
  lint _ := ByteArray.empty
  shell _ := ⟨"", "pwned.pwned.pwned"⟩

/-- What is found in it if some names are tainted. -/
def foundWith (tainted : NameSet) : Except Fault (List Finding) :=
  ((runStage gullible venturing .injection).exec
    { survey := { venturingSurvey with tainted := tainted } }).1

/-- With `x` and `z` tainted too, three lines more are found. -/
theorem injection_findings_mono_venturing :
    NameSet.ofList ["y"] ⊆ NameSet.ofList ["x", "y", "z"] ∧
      (∃ found found', foundWith (.ofList ["y"]) = .ok found ∧
        foundWith (.ofList ["x", "y", "z"]) = .ok found' ∧ found.Sublist found') ∧
      (foundWith (.ofList ["y"])).toOption.map (·.map (·.line)) = some [5, 2] ∧
      (foundWith (.ofList ["x", "y", "z"])).toOption.map (·.map (·.line)) =
        some [1, 5, 2, 3, 4] := by
  have hsub : NameSet.ofList ["y"] ⊆ NameSet.ofList ["x", "y", "z"] := by
    intro n hn
    rcases NameSet.mem_insertAll.1 hn with hn | hn
    · exact absurd hn (NameSet.not_mem_empty n)
    · rw [List.mem_singleton.1 hn]
      decide
  have hlines : (foundWith (.ofList ["x", "y", "z"])).toOption.map (·.map (·.line)) =
      some [1, 5, 2, 3, 4] := by
    decide +kernel
  refine ⟨hsub, ?_, by decide +kernel, hlines⟩
  cases hfound' : foundWith (.ofList ["x", "y", "z"]) with
  | error fault =>
    rw [hfound'] at hlines
    cases hlines
  | ok found' =>
    obtain ⟨found, hfound, hsublist⟩ :=
      injection_findings_mono gullible venturing venturingSurvey hsub hfound'
    exact ⟨found, found', hfound, rfl, hsublist⟩

end Audit

end ShellAudit
