-- SUMMARY: Audits of a script may be repeated: results and survey stay as the first left them.
import ShellAudit.Proofs.Auditing

/-!
# Repeated audits

All stages of an audit look at one survey, and the last of them changes it: it counts the
positional parameters as tainted. Doing so twice changes nothing more, and no other stage
looks at what is tainted. So two audits that start from surveys which agree up to these
parameters go on side by side: they find the same, and the parameters are tainted after both
or after neither. An audit of what an earlier audit left behind is such a pair.
-/

namespace ShellAudit

/-! ## Answers that are always alike -/

/-- What is answered does not depend on what the answering program remembers. -/
def Fixed {σ α : Type} (x : StateM σ α) : Prop := ∀ t u, (x.run t).1 = (x.run u).1

/-- The outside programs answer alike whenever they are asked the same. -/
structure Tools.AnswerAlike {σ : Type} (tools : Tools (StateM σ)) : Prop where
  lint (target : LintTarget) : Fixed (tools.lint target)
  shell (script : String) : Fixed (tools.shell script)

namespace Fixed

variable {σ α β : Type}

theorem pure (a : α) : Fixed (Pure.pure a : StateM σ α) := fun _ _ => rfl

theorem bind {x : StateM σ α} {next : α → StateM σ β} (hx : Fixed x)
    (hnext : ∀ a, Fixed (next a)) : Fixed (x >>= next) := by
  intro t u
  rw [StateT.run_bind, StateT.run_bind]
  show ((next (x.run t).1).run (x.run t).2).1 = ((next (x.run u).1).run (x.run u).2).1
  rw [hx t u]
  exact hnext _ _ _

/-- A step that may stop is fixed if what it goes on with is. -/
theorem run_bind {x : ExceptT Fault (StateM σ) α} {next : α → ExceptT Fault (StateM σ) β}
    (hx : Fixed x.run) (hnext : ∀ a, Fixed (next a).run) : Fixed (x >>= next).run := by
  rw [ExceptT.run_bind]
  apply hx.bind
  intro result
  cases result with
  | error fault => exact .pure _
  | ok a => exact hnext a

theorem run_mapM {f : α → ExceptT Fault (StateM σ) β} (hf : ∀ a, Fixed (f a).run) (l : List α) :
    Fixed (l.mapM f).run := by
  induction l with
  | nil => exact .pure _
  | cons a l ih =>
    rw [List.mapM_cons]
    apply run_bind (hf a)
    intro b
    apply run_bind ih
    intro bs
    exact .pure _

end Fixed

section

variable {σ : Type} {shell : String → StateM σ Transcript} (h : ∀ script, Fixed (shell script))

include h

theorem Probe.attack_fixed (conditions : List String) (name : String) :
    Fixed (attack shell conditions name) := by
  induction conditions generalizing name with
  | nil => exact .pure false
  | cons condition rest ih =>
    apply (h _).bind
    intro transcript
    split
    · exact .pure true
    · exact ih operand

theorem Check.injection_fixed (script : Script) (survey : Survey) (tainted : NameSet) :
    Fixed (injection shell script survey tainted).run := by
  have one (i : Injectable) : Fixed (evaluatedByTest shell script tainted i).run := by
    unfold evaluatedByTest
    split
    · refine .run_bind (.pure _) fun line => .run_bind ?_ fun told => ?_
      · exact (Probe.attack_fixed h _ _).bind fun _ => .pure _
      · split
        · exact .run_bind (.pure _) fun _ => .pure _
        · exact .pure _
    · exact .pure _
  have tests : Fixed (evaluatedByTests shell script tainted survey.injectable).run :=
    .run_bind (.run_mapM one survey.injectable) fun _ => .pure _
  exact .run_bind (.pure _) fun _ => .run_bind (.pure _) fun _ => .run_bind tests fun _ =>
    .run_bind (.pure _) fun _ => .pure _

end

/-! ## Two audits side by side -/

/-- The survey with the positional parameters among the tainted names. -/
def Survey.parametrized (survey : Survey) : Survey :=
  { survey with tainted := Check.withParameters survey.tainted }

theorem NameSet.insert_of_mem {s : NameSet} {n : String} (h : n ∈ s) : s.insert n = s :=
  dif_pos h

/-- Names that are there already change nothing. -/
theorem NameSet.insertAll_of_subset {s : NameSet} {ns : List String} (h : ∀ n ∈ ns, n ∈ s) :
    s.insertAll ns = s := by
  induction ns with
  | nil => rfl
  | cons n ns ih =>
    rw [List.forall_mem_cons] at h
    show (s.insert n).insertAll ns = s
    rw [insert_of_mem h.1]
    exact ih h.2

/-- Nothing else is changed. -/
theorem Survey.tainted_parametrized (survey : Survey) :
    { survey.parametrized with tainted := survey.tainted } = survey := by
  simp only [parametrized]

theorem Survey.parametrized_idem (survey : Survey) :
    survey.parametrized.parametrized = survey.parametrized := by
  have hidem : Check.withParameters (Check.withParameters survey.tainted) =
      Check.withParameters survey.tainted := by
    apply NameSet.insertAll_of_subset
    intro name hname
    exact NameSet.mem_insertAll.2 (.inr hname)
  simp only [parametrized, hidem]

namespace Audit

variable {σ α β : Type}

/-- Two runs of a step from desks that `P` relates give the same, and leave desks that `Q`
relates, whatever the outside programs remember. -/
def Agree (P : Desk → Desk → Prop) (step : Audit (StateM σ) α) (Q : Desk → Desk → Prop) : Prop :=
  ∀ d d' t t', P d d' → ((step.exec d).run t).1.1 = ((step.exec d').run t').1.1 ∧
    Q ((step.exec d).run t).1.2 ((step.exec d').run t').1.2

namespace Agree

variable {P Q R : Desk → Desk → Prop} {step : Audit (StateM σ) α}

theorem pure (a : α) : Agree P (Pure.pure a : Audit (StateM σ) α) P := fun _ _ _ _ h => ⟨rfl, h⟩

theorem modify {f : Desk → Desk} (h : ∀ d d', P d d' → Q (f d) (f d')) :
    Agree P (modify f : Audit (StateM σ) Unit) Q := fun _ _ _ _ hd => ⟨rfl, h _ _ hd⟩

/-- What the state is asked for is the same on both sides. -/
theorem ask {x : Desk → Except Fault α} (h : ∀ d d', P d d' → x d = x d') :
    Agree P (do liftExcept (x (← get)) : Audit (StateM σ) α) P := fun _ _ _ _ hd => ⟨h _ _ hd, hd⟩

theorem weaken (h : Agree P step Q) (hQR : ∀ d d', Q d d' → R d d') : Agree P step R :=
  fun d d' t t' hd => ⟨(h d d' t t' hd).1, hQR _ _ (h d d' t t' hd).2⟩

/-- Desks that are the same may be read. -/
theorem get {next : Desk → Audit (StateM σ) α} (hsame : ∀ d d', P d d' → d = d')
    (h : ∀ d, P d d → Agree P (next d) Q) : Agree P (do next (← get)) Q := by
  intro d d' t t' hd
  obtain rfl := hsame d d' hd
  exact h d hd d d t t' hd

theorem lift (x : Except Fault α) : Agree P (liftExcept x : Audit (StateM σ) α) P :=
  fun _ _ _ _ hd => ⟨rfl, hd⟩

theorem tool {x : StateM σ α} (h : Fixed x) : Agree P (liftTool x : Audit (StateM σ) α) P :=
  fun _ _ t t' hd => ⟨congrArg Except.ok (h t t'), hd⟩

/-- A step that goes on may tell more of the desks than one that has stopped. -/
theorem bind {next : α → Audit (StateM σ) β} (h : Agree P step Q)
    (hnext : ∀ a, Agree Q (next a) R) (hQR : ∀ d d', Q d d' → R d d') :
    Agree P (step >>= next) R := by
  intro d d' t t' hd
  obtain ⟨hresult, hleft⟩ := h d d' t t' hd
  have opened (d : Desk) (t : σ) : ((step >>= next).exec d).run t =
      match (step.exec d).run t with
      | ((.ok a, e), u) => ((next a).exec e).run u
      | ((.error fault, e), u) => ((.error fault, e), u) := by
    simp only [exec, ExceptT.run_bind, StateT.run_bind]
    rcases ((ExceptT.run step).run d).run t with ⟨⟨_ | _, _⟩, _⟩ <;> rfl
  rw [opened, opened]
  rcases hfirst : (step.exec d).run t with ⟨⟨result, e⟩, u⟩
  rcases hsecond : (step.exec d').run t' with ⟨⟨result', e'⟩, u'⟩
  rw [hfirst, hsecond] at hresult hleft
  simp only at hresult hleft
  subst hresult
  cases result with
  | error fault => exact ⟨rfl, hQR _ _ hleft⟩
  | ok a => exact hnext a e e' u u' hleft

end Agree

/-- The desks of two audits, one of the survey `s` and one of `s'`. The same has been printed,
and the positional parameters have been tainted on both or on neither. -/
def Abreast (s s' : Survey) (d d' : Desk) : Prop :=
  d.printed = d'.printed ∧
    (d.survey = s ∧ d'.survey = s' ∨
      d.survey = s.parametrized ∧ d'.survey = s.parametrized)

/-- Two desks that are the same, with the parameters tainted. -/
def Joined (s : Survey) (d d' : Desk) : Prop := d = d' ∧ d.survey = s.parametrized

theorem Joined.abreast {s s' : Survey} {d d' : Desk} (h : Joined s d d') : Abreast s s' d d' := by
  obtain ⟨rfl, h⟩ := h
  exact ⟨rfl, .inr ⟨h, h⟩⟩

section

variable {s s' : Survey} (hs : s.parametrized = s'.parametrized)

include hs

theorem Abreast.parametrized {d d' : Desk} (h : Abreast s s' d d') :
    d.survey.parametrized = s.parametrized ∧ d'.survey.parametrized = s.parametrized := by
  rcases h.2 with ⟨h, h'⟩ | ⟨h, h'⟩
  · rw [h, h', hs]
    exact ⟨rfl, rfl⟩
  · rw [h, h', Survey.parametrized_idem]
    exact ⟨rfl, rfl⟩

/-- A check that does not look at the tainted names finds the same. -/
theorem agree_check {x : Survey → Except Fault (List Finding)}
    (hx : ∀ survey, x survey.parametrized = x survey) :
    Agree (Abreast s s') (do liftExcept (x (← get).survey) : Audit (StateM σ) (List Finding))
      (Abreast s s') := by
  refine .ask fun d d' hd => ?_
  obtain ⟨h, h'⟩ := hd.parametrized hs
  rw [← hx, h, ← h', hx]

theorem agree_parametrize :
    Agree (Abreast s s') (modify fun desk => { desk with survey :=
      { desk.survey with tainted := Check.withParameters desk.survey.tainted } } :
        Audit (StateM σ) Unit) (Joined s) := by
  refine .modify fun d d' hd => ?_
  obtain ⟨h, h'⟩ := hd.parametrized hs
  rw [Survey.parametrized] at h h'
  rw [h, h', hd.1]
  exact ⟨rfl, rfl⟩

variable {tools : Tools (StateM σ)} (htools : tools.AnswerAlike)

include htools

theorem agree_runStage (script : Script) (stage : Stage) :
    Agree (Abreast s s') (runStage tools script stage) (Abreast s s') := by
  cases stage with
  | lint => exact .bind (.tool (htools.lint _)) (fun _ => .lift _) fun _ _ => id
  | searchPath =>
    apply agree_check hs
    intro survey
    have hsets : Check.setsPath survey.parametrized = Check.setsPath survey := by
      simp only [Check.setsPath, Survey.parametrized]
    simp only [Check.searchPath, hsets]
  | scriptName =>
    apply agree_check hs
    intro survey
    simp only [Check.scriptName, Survey.parametrized]
  | expansion =>
    apply agree_check hs
    intro survey
    simp only [Check.expansion, Survey.parametrized]
  | injection =>
    -- Once the parameters are tainted, the two desks are one.
    refine .bind (agree_parametrize hs) (fun _ => .get (fun d d' h => h.1) fun d _ => ?_)
      fun d d' h => h.abreast
    refine .weaken (Q := Joined s) ?_ fun d d' h => h.abreast
    exact .bind (.tool (Check.injection_fixed htools.shell script _ _)) (fun _ => .lift _)
      fun _ _ => id

omit hs htools in
theorem agree_print (line : String) :
    Agree (Abreast s s') (print line : Audit (StateM σ) Unit) (Abreast s s') :=
  .modify fun _ _ hd => ⟨congrArg (· ++ [line]) hd.1, hd.2⟩

omit hs htools in
theorem agree_tell (verbose : Bool) (line : String) :
    Agree (Abreast s s') (tell verbose line : Audit (StateM σ) Unit) (Abreast s s') := by
  unfold tell
  split
  · exact agree_print line
  · exact .pure ()

theorem agree_runStages (verbose : Bool) (script : Script) (stages : List Stage) :
    Agree (Abreast s s') (runStages tools verbose script stages) (Abreast s s') := by
  induction stages with
  | nil => exact .pure []
  | cons stage rest ih =>
    unfold runStages
    refine .bind (agree_tell verbose _) (fun _ => ?_) fun _ _ => id
    refine .bind (agree_runStage hs htools script stage) (fun found => ?_) fun _ _ => id
    split
    · exact .bind (agree_print _) (fun _ => .pure _) fun _ _ => id
    · refine .bind (agree_tell verbose _) (fun _ => ?_) fun _ _ => id
      exact .bind ih (fun _ => .pure _) fun _ _ => id

/-- Audits of surveys that agree up to the positional parameters find the same and stay abreast. -/
theorem agree_findings (verbose : Bool) (script : Script) :
    Agree (Abreast s s') (findings tools verbose script) (Abreast s s') :=
  .bind (agree_runStages hs htools verbose script Stage.all) (fun _ => .pure _) fun _ _ => id

end

end Audit

/-! ## Any number of audits -/

namespace Job

section

variable {m : Type → Type} [Monad m]

/-- Audits a script some number of times, each time with the survey as the audit before has
left it. Gives the results in order, and the survey as it is in the end. -/
def auditTimes (tools : Tools m) (v : Verbosity) (script : Script) :
    Nat → Survey → Job m (List (Except Fault (List Finding)) × Survey)
  | 0, survey => return ([], survey)
  | n + 1, survey => do
    let (result, left) ← auditOnce tools v script survey
    let (results, last) ← auditTimes tools v script n left
    return (result :: results, last)

end

variable {σ : Type} {tools : Tools (StateM σ)}

theorem auditOnce_gives {v : Verbosity} {script : Script} {survey left : Survey}
    {result : Except Fault (List Finding)}
    (h : ∀ t, ∃ printed,
      (((Audit.findings tools v.verbose script).exec { survey := survey }).run t).1 =
        (result, ⟨left, printed⟩)) (files : FileStore) :
    Completes (·.files = files) (auditOnce tools v script survey) fun r s =>
      r = (result, left) ∧ s.files = files := by
  refine .bind (Q := fun r s => (r.1, r.2.survey) = (result, left) ∧ s.files = files)
    (.lift fun s t hs => ⟨?_, hs⟩) fun r => .of_pre fun hr => ?_
  · obtain ⟨printed, hprinted⟩ := h t
    rw [hprinted]
  · exact .bind (sayAll_completes _) fun _ => .pure fun _ hs => ⟨hr, hs⟩

/-- What an audit gives, and the survey that it leaves, do not depend on what the outside
programs remember. An audit of that survey gives the same and leaves it as it is. -/
theorem audit_settles (halike : tools.AnswerAlike) (verbose : Bool) (script : Script)
    (survey : Survey) (t₀ : σ) :
    ∃ result left, (left = survey ∨ left = survey.parametrized) ∧
      ∀ start, start = survey ∨ start = left → ∀ t, ∃ printed,
        (((Audit.findings tools verbose script).exec { survey := start }).run t).1 =
          (result, ⟨left, printed⟩) := by
  rcases hfirst : (((Audit.findings tools verbose script).exec { survey := survey }).run t₀).1
    with ⟨result, left, printed₀⟩
  have side {start : Survey} (hstart : survey.parametrized = start.parametrized) (t : σ) :=
    Audit.agree_findings hstart halike verbose script { survey := survey } { survey := start } t₀ t
      ⟨rfl, .inl ⟨rfl, rfl⟩⟩
  simp only [hfirst] at side
  have hleft : left = survey ∨ left = survey.parametrized :=
    (side rfl t₀).2.2.imp And.left And.left
  refine ⟨result, left, hleft, fun start hstart t => ?_⟩
  have hparametrized : survey.parametrized = start.parametrized := by
    rcases hstart with rfl | rfl
    · rfl
    · rcases hleft with h | h
      · rw [h]
      · rw [h, Survey.parametrized_idem]
  obtain ⟨hresult, -, hend⟩ := side hparametrized t
  have hlast : (((Audit.findings tools verbose script).exec
      { survey := start }).run t).1.2.survey = left := by
    rcases hend with ⟨hsame, hend⟩ | ⟨hsame, hend⟩
    · exact hend.trans (hstart.elim (·.trans hsame.symm) id)
    · exact hend.trans hsame.symm
  exact ⟨_, Prod.ext hresult.symm (congrArg (Audit.Desk.mk · _) hlast)⟩

/-- One audit before others. -/
theorem auditTimes_cons {v : Verbosity} {script : Script} {start left last : Survey} {n : Nat}
    {result : Except Fault (List Finding)} {results : List (Except Fault (List Finding))}
    {files : FileStore}
    (honce : ∀ t, ∃ printed,
      (((Audit.findings tools v.verbose script).exec { survey := start }).run t).1 =
        (result, ⟨left, printed⟩))
    (hrest : Completes (·.files = files) (auditTimes tools v script n left) fun r s =>
      r = (results, last) ∧ s.files = files) :
    Completes (·.files = files) (auditTimes tools v script (n + 1) start) fun r s =>
      r = (result :: results, last) ∧ s.files = files := by
  refine .bind (auditOnce_gives honce files) fun r => .of_pre ?_
  rintro rfl
  refine .bind hrest fun r => .of_pre ?_
  rintro rfl
  exact .pure fun _ hs => ⟨rfl, hs⟩

/-- However often a script is audited, each audit gives what the first one gave, and the survey
stays as the first one has left it: with the positional parameters `1` to `9` among the
tainted names, perhaps, and otherwise as it was. The outside programs have to answer alike
whenever they are asked the same. -/
theorem auditTimes_stable (halike : tools.AnswerAlike) (v : Verbosity) (script : Script)
    (survey : Survey) :
    ∃ result left,
      (∀ n s t, ∃ s' t', ((auditTimes tools v script (n + 1) survey).exec s).run t =
        ((.ok (List.replicate (n + 1) result, left), s'), t') ∧ s'.files = s.files) ∧
      { left with tainted := survey.tainted } = survey ∧
      (∀ name ∈ survey.tainted, name ∈ left.tainted) ∧
      ∀ name ∈ left.tainted, name ∈ survey.tainted ∨
        name ∈ ["1", "2", "3", "4", "5", "6", "7", "8", "9"] := by
  rcases isEmpty_or_nonempty σ with hempty | ⟨⟨t₀⟩⟩
  · exact ⟨.ok [], survey, fun _ _ t => hempty.elim t, rfl, fun _ => id, fun _ => .inl⟩
  obtain ⟨result, left, hleft, hsettled⟩ := audit_settles halike v.verbose script survey t₀
  refine ⟨result, left, fun n s t => ?_, ?_⟩
  · -- From the second audit on, each starts from the survey that it leaves.
    have hlater (n : Nat) : Completes (·.files = s.files) (auditTimes tools v script n left)
        fun r s' => r = (List.replicate n result, left) ∧ s'.files = s.files := by
      induction n with
      | zero => exact .pure fun _ hs => ⟨rfl, hs⟩
      | succ n ih => exact auditTimes_cons (hsettled left (.inr rfl)) ih
    obtain ⟨_, s', t', hrun, rfl, hfiles⟩ :=
      auditTimes_cons (hsettled survey (.inl rfl)) (hlater n) s t rfl
    exact ⟨s', t', hrun, hfiles⟩
  · rcases hleft with rfl | rfl
    · exact ⟨rfl, fun _ => id, fun _ => .inl⟩
    · refine ⟨survey.tainted_parametrized, fun name hname => ?_, fun name hname => ?_⟩
      · exact NameSet.mem_insertAll.2 (.inl hname)
      · exact NameSet.mem_insertAll.1 hname

/-- Outside programs that keep a list of what they have been asked. The linter has nothing to
say, and the shell evaluates the operand of every test. -/
def remembering : Tools (StateM (List String)) where
  lint _ := modifyGet fun asked => (ByteArray.empty, asked ++ ["lint"])
  shell script := modifyGet fun asked => (⟨"", "pwned.pwned.pwned"⟩, asked ++ [script])

/-- A script that evaluates and tests a positional parameter. -/
def evaluating : Script := .ofText "PATH=/bin\neval $1\n[[ $2 -eq 1 ]]\n"

/-- What is recorded about it. -/
def evaluatingSurvey : Survey where
  assigned := [⟨"PATH", some ⟨"/bin", []⟩, 0, 0, false⟩]
  used := [⟨"$1", 1, 5⟩]
  commands := [⟨"eval", ["$1"], 1, 0⟩]
  injectable := [⟨"2", 2, 4, "[["⟩]
  tainted := .ofList ["x"]

/-- The parameters are tainted after the first audit, and already count in it: all audits find
that the second line and the third run user input. -/
theorem auditTimes_stable_evaluating :
    remembering.AnswerAlike ∧ ∃ result left,
      (∀ n s t, ∃ s' t',
        ((auditTimes remembering {} evaluating (n + 1) evaluatingSurvey).exec s).run t =
          ((.ok (List.replicate (n + 1) result, left), s'), t') ∧ s'.files = s.files) ∧
      result.toOption.map (·.map (·.line)) = some [2, 3] ∧
      left.tainted.names = ["x", "1", "2", "3", "4", "5", "6", "7", "8", "9"] := by
  have halike : remembering.AnswerAlike := ⟨fun _ _ _ => rfl, fun _ _ _ => rfl⟩
  obtain ⟨result, left, hstable, -⟩ := auditTimes_stable halike {} evaluating evaluatingSurvey
  refine ⟨halike, result, left, hstable, ?_⟩
  let view (r : Except Fault (List (Except Fault (List Finding)) × Survey)) :=
    r.toOption.map fun r => (r.1.map fun result => result.toOption.map (·.map (·.line)),
      r.2.tainted.names)
  have honce {outcome} (h : ((auditTimes remembering {} evaluating (0 + 1)
      evaluatingSurvey).exec default).run [] = outcome) :
      view outcome.1.1 =
        some ([some [2, 3]], ["x", "1", "2", "3", "4", "5", "6", "7", "8", "9"]) := by
    subst h
    decide +kernel
  obtain ⟨s', t', hrun, -⟩ := hstable 0 default []
  have hview := honce hrun
  simpa [view, Except.toOption] using hview

end Job

end ShellAudit
