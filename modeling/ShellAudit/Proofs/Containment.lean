-- SUMMARY: Which texts are run to probe tests, and when they hold nothing of a script but tests.
import ShellAudit.Check.Injection
import ShellAudit.Proofs.Replacing

/-!
# What probing runs

The texts that a shell is given to probe tests are put together from lines of the
script. `Contained` says of such a condition that it is a test between brackets
and starts no command substitution. A condition is contained exactly if the
line has the opener of the test in it and the part of the test that mentions the
variable starts no command substitution. Nothing in the analysis asks for that:
the condition is taken from the line as it stands.
-/

namespace ShellAudit

namespace Probe

/-- A condition that is a test between brackets and starts no command
substitution. -/
structure Contained (condition : String) : Prop where
  bracketed : ∃ opener inner, closer opener ≠ "" ∧ condition = bracket opener inner
  inert : ¬Text.Substitutes condition.toList

/-! ## The conditions that are tried -/

/-- The conditions as they are tried: the operand takes the place of the variable
in the first of them. -/
def trials (name : String) : List String → List String
  | [] => []
  | c :: cs => substitute name c :: cs

theorem substitute_operand (condition : String) : substitute operand condition = condition := by
  have hne : operand.toList ≠ [] := by decide
  rw [substitute, Text.replace, if_neg hne, Text.replaceFrom_self hne, List.drop_zero,
    String.ofList_toList]

theorem trials_operand (conditions : List String) : trials operand conditions = conditions := by
  cases conditions with
  | nil => rfl
  | cons c cs => rw [trials, substitute_operand]

/-- A shell that writes down what it runs. Its answers may depend on all of that. -/
def recorded (answers : List String → String → Transcript) (text : String) :
    StateM (List String) Transcript := do
  let ran ← get
  set (ran ++ [text])
  return answers ran text

theorem attack_cons (answers : List String → String → Transcript) (c : String) (cs : List String)
    (name : String) (ran : List String) :
    (attack (recorded answers) (c :: cs) name).run ran =
      if tells (answers ran (script (substitute name c))) then
        (true, ran ++ [script (substitute name c)])
      else (attack (recorded answers) cs operand).run (ran ++ [script (substitute name c)]) := by
  rw [attack]
  exact apply_ite (fun rest : StateM (List String) Bool =>
    rest.run (ran ++ [script (substitute name c)])) _ _ _

/-- Trying conditions runs the scripts of the first few trials. -/
theorem attack_ran (answers : List String → String → Transcript) (conditions : List String)
    (name : String) (ran : List String) :
    ∃ tried, tried <+: trials name conditions ∧
      ((attack (recorded answers) conditions name).run ran).2 = ran ++ tried.map script := by
  induction conditions generalizing name ran with
  | nil => exact ⟨[], List.nil_prefix, (List.append_nil ran).symm⟩
  | cons c cs ih =>
    rw [attack_cons]
    split
    · exact ⟨[substitute name c], ⟨cs, rfl⟩, rfl⟩
    · obtain ⟨tried, htried, hran⟩ := ih operand (ran ++ [script (substitute name c)])
      rw [trials_operand] at htried
      refine ⟨substitute name c :: tried, List.cons_prefix_cons.2 ⟨rfl, htried⟩, ?_⟩
      rw [hran, List.map_cons, List.append_assoc, List.singleton_append]

/-- An answer in which nothing is printed. -/
def silence : Transcript := ⟨"", ""⟩

/-- If nothing tells, all conditions are tried. -/
theorem attack_silence (conditions : List String) (name : String) (ran : List String) :
    (attack (recorded fun _ _ => silence) conditions name).run ran =
      (false, ran ++ (trials name conditions).map script) := by
  induction conditions generalizing name ran with
  | nil => exact congrArg (Prod.mk false) (List.append_nil ran).symm
  | cons c cs ih =>
    have hsilence : tells silence = false := by decide
    rw [attack_cons, hsilence, if_neg Bool.false_ne_true, ih, trials_operand, trials, List.map_cons,
      List.append_assoc, List.singleton_append]

theorem script_injective {c c' : String} (h : script c = script c') : c = c' := by
  exact (String.append_right_inj preamble).1 ((String.append_left_inj conclusion).1 h)

/-! ## Tests between brackets -/

/-- The characters that brackets, blanks and command substitutions are written with. -/
def signs : List Char := ['[', ']', '(', ')', ' ', '$', '\x60']

/-- A name that is not empty and has no sign in it. -/
def PlainName (name : String) : Prop :=
  name.toList ≠ [] ∧ ∀ c ∈ name.toList, c ∉ signs

instance : DecidablePred PlainName := fun name =>
  @instDecidableAnd _ _ _ (List.decidableBAll _ name.toList)

theorem PlainName.not_mem {name : String} (h : PlainName name) {c : Char} (hc : c ∈ signs) :
    c ∉ name.toList :=
  fun hmem => h.2 c hmem hc

theorem PlainName.inert {name : String} (h : PlainName name) : Text.Inert name.toList := by
  intro c hc
  refine ⟨?_, ?_, ?_⟩ <;> rintro rfl <;> exact h.not_mem (by decide) hc

theorem closer_ne_empty {opener : String} (h : closer opener ≠ "") :
    opener = "[" ∨ opener = "[[" ∨ opener = "((" := by
  unfold closer at h
  split at h
  · exact .inl ‹_›
  · split at h
    · exact .inr (.inl ‹_›)
    · split at h
      · exact .inr (.inr ‹_›)
      · exact absurd rfl h

theorem toList_bracket (opener : String) (condition : List Char) :
    (bracket opener condition).toList =
      (opener.toList ++ ' ' :: condition) ++ ' ' :: (closer opener).toList := by
  simp [bracket, String.toList_append]

/-- A test between brackets ends with a bracket. -/
theorem not_contained_of_blank {condition : String} (h : condition.toList.getLast? = some ' ') :
    ¬Contained condition := by
  rintro ⟨⟨opener, inner, hcloser, rfl⟩, -⟩
  rw [toList_bracket, List.getLast?_append] at h
  rcases closer_ne_empty hcloser with rfl | rfl | rfl <;> simp [closer] at h

/-- A test between brackets has four characters at least. -/
theorem not_contained_of_short {condition : String} (h : condition.toList.length ≤ 3) :
    ¬Contained condition := by
  rintro ⟨⟨opener, inner, hcloser, rfl⟩, -⟩
  have hlengths : 1 ≤ opener.toList.length ∧ 1 ≤ (closer opener).toList.length := by
    rcases closer_ne_empty hcloser with rfl | rfl | rfl <;> decide
  rw [toList_bracket, List.length_append, List.length_append, List.length_cons,
    List.length_cons] at h
  omega

/-- A condition with its opener before it is contained if it stands between
brackets and starts no command substitution. -/
theorem contained_bracket (opener : String) (condition : List Char) :
    Contained (bracket opener condition) ↔ closer opener ≠ "" ∧ ¬Text.Substitutes condition := by
  by_cases hcloser : closer opener = ""
  · have hblank : (bracket opener condition).toList.getLast? = some ' ' := by
      rw [toList_bracket, hcloser]
      exact List.getLast?_concat
    exact ⟨fun hc => absurd hc (not_contained_of_blank hblank), fun hc => absurd hcloser hc.1⟩
  · have hbrackets :
        ¬Text.Substitutes opener.toList ∧ ¬Text.Substitutes (closer opener).toList := by
      rcases closer_ne_empty hcloser with rfl | rfl | rfl <;> decide
    have hsubstitutes :
        Text.Substitutes (bracket opener condition).toList ↔ Text.Substitutes condition := by
      rw [toList_bracket, Text.substitutes_append_blank, Text.substitutes_append_blank]
      simp [hbrackets]
    exact ⟨fun hc => ⟨hcloser, mt hsubstitutes.2 hc.inert⟩,
      fun hc => ⟨⟨opener, condition, hcloser, rfl⟩, mt hsubstitutes.1 hc.2⟩⟩

/-! ## The operand in the place of a variable -/

section

variable {name : String} (hname : PlainName name)

include hname

theorem toList_substitute (condition : String) :
    (substitute name condition).toList =
      Text.replaceFrom name.toList operand.toList 0 condition.toList := by
  rw [substitute, Text.replace, if_neg hname.1, String.toList_ofList]

/-- The operand does not change the brackets around a condition. -/
theorem substitute_bracket {opener : String} (h : closer opener ≠ "") (condition : List Char) :
    substitute name (bracket opener condition) =
      bracket opener (Text.replaceFrom name.toList operand.toList 0 condition) := by
  have hsigns : (∀ c ∈ opener.toList ++ [' '], c ∈ signs) ∧
      ∀ c ∈ ' ' :: (closer opener).toList, c ∈ signs := by
    rcases closer_ne_empty h with rfl | rfl | rfl <;> simp [signs, closer]
  -- The name shares no character with either end, so it is replaced in between only.
  have hsplit (condition : List Char) : (bracket opener condition).toList =
      (opener.toList ++ [' ']) ++ (condition ++ ' ' :: (closer opener).toList) := by
    simp [toList_bracket]
  refine String.toList_inj.1 ?_
  rw [toList_substitute hname, hsplit, hsplit,
    Text.replaceFrom_append_left hname.1 fun c hc => hname.not_mem (hsigns.1 c hc),
    Text.replaceFrom_append_right hname.1 (fun c hc => hname.not_mem (hsigns.2 c hc)) condition
      (Nat.zero_le _)]

/-- The operand in the place of a variable does not change whether a condition is
contained. -/
theorem contained_substitute_bracket (opener : String) (condition : List Char) :
    Contained (substitute name (bracket opener condition)) ↔
      Contained (bracket opener condition) := by
  by_cases hcloser : closer opener = ""
  · have hblank : (substitute name (bracket opener condition)).toList.getLast? = some ' ' := by
      have hafter (c : Char) (hc : c ∈ ' ' :: "".toList) : c ∉ name.toList :=
        hname.not_mem (by rw [List.mem_singleton.1 hc]; decide)
      rw [toList_substitute hname, toList_bracket, hcloser,
        Text.replaceFrom_append_right hname.1 hafter _ (Nat.zero_le _)]
      exact List.getLast?_concat
    rw [contained_bracket]
    exact ⟨fun hc => absurd hc (not_contained_of_blank hblank), fun hc => absurd hcloser hc.1⟩
  · rw [substitute_bracket hname hcloser, contained_bracket, contained_bracket,
      Text.substitutes_replaceFrom hname.1 (by decide) hname.inert (by decide) condition (by simp)]

/-- A single character is no test, nor is the operand. -/
theorem not_contained_substitute_character (c : Char) :
    ¬Contained (substitute name (String.ofList [c])) := by
  refine not_contained_of_short ?_
  rw [toList_substitute hname, String.toList_ofList, Text.replaceFrom]
  split
  · rw [Text.replaceFrom]
    decide
  · simp [Text.replaceFrom]

end

/-- Where the operand makes no difference, the trials are as the conditions are. -/
theorem forall_mem_trials {P : String → Prop} {name : String} {conditions : List String}
    (h : ∀ c ∈ conditions, P (substitute name c) ↔ P c) :
    (∀ c ∈ trials name conditions, P c) ↔ ∀ c ∈ conditions, P c := by
  cases conditions with
  | nil => rfl
  | cons c cs => simp only [trials, List.forall_mem_cons, h c List.mem_cons_self]

end Probe

namespace Check

/-! ## The lines that are probed -/

/-- The tests that are probed, each with its line. A test whose line is not there
stops the check. -/
def probed (script : Script) (tainted : NameSet) : List Injectable → List (Injectable × String)
  | [] => []
  | i :: is =>
    if i.name ∈ tainted then
      match lineAt script.lines i.line with
      | .ok line => (i, String.ofList line) :: probed script tainted is
      | .error _ => []
    else probed script tainted is

/-- The conditions that are tried for a test on a line. -/
def trialsOn (i : Injectable) (line : String) : List String :=
  Probe.trials i.name (Probe.extract line i.opener i.name).attempts

/-- What a check leaves behind when its shell has run some texts before. -/
def after {α : Type} (check : ExceptT Fault (StateM (List String)) α) (ran : List String) :
    Except Fault α × List String :=
  (ExceptT.run check).run ran

theorem after_bind {α β : Type} (check : ExceptT Fault (StateM (List String)) α)
    (next : α → ExceptT Fault (StateM (List String)) β) (ran : List String) :
    after (check >>= next) ran =
      match after check ran with
      | (.ok a, ran) => after (next a) ran
      | (.error fault, ran) => (.error fault, ran) := by
  simp only [after, ExceptT.run_bind, StateT.run_bind]
  rcases (ExceptT.run check).run ran with ⟨_ | _, t⟩ <;> rfl

theorem after_mk {α : Type} (result : Except Fault α) (ran : List String) :
    after (ExceptT.mk (pure result)) ran = (result, ran) := rfl

theorem after_lift {α : Type} (run : StateM (List String) α) (ran : List String) :
    after (ExceptT.lift run) ran = (.ok (run.run ran).1, (run.run ran).2) := rfl

/-- What a check returns in the end is put together without running anything. -/
theorem after_map_snd {α β : Type} (check : ExceptT Fault (StateM (List String)) α) (f : α → β)
    (ran : List String) :
    (after (check >>= fun a => pure (f a)) ran).2 = (after check ran).2 := by
  rw [after_bind]
  rcases after check ran with ⟨_ | _, t⟩ <;> rfl

/-- A fault in one of several checks stops those behind it. -/
theorem after_mapM_cons_snd {α β : Type} (check : α → ExceptT Fault (StateM (List String)) β)
    (a : α) (as : List α) (ran : List String) :
    (after ((a :: as).mapM check) ran).2 =
      match after (check a) ran with
      | (.ok _, ran) => (after (as.mapM check) ran).2
      | (.error _, ran) => ran := by
  rw [List.mapM_cons, after_bind]
  rcases after (check a) ran with ⟨_ | _, t⟩
  · rfl
  · exact after_map_snd (as.mapM check) _ t

section

variable (shell : String → StateM (List String) Transcript) (script : Script) {tainted : NameSet}
  {i : Injectable}

theorem after_evaluatedByTest_clean (h : i.name ∉ tainted) (ran : List String) :
    after (evaluatedByTest shell script tainted i) ran = (.ok [], ran) := by
  rw [evaluatedByTest, if_neg h]
  rfl

theorem after_evaluatedByTest_error (h : i.name ∈ tainted) {fault : Fault}
    (hline : lineAt script.lines i.line = .error fault) (ran : List String) :
    after (evaluatedByTest shell script tainted i) ran = (.error fault, ran) := by
  rw [evaluatedByTest, if_pos h, hline]
  rfl

/-- A test on a line is probed by trying its conditions; the check goes on if none
of them tells. -/
theorem after_evaluatedByTest_line (h : i.name ∈ tainted) {line : List Char}
    (hline : lineAt script.lines i.line = .ok line) (ran : List String) :
    let material := Probe.extract (String.ofList line) i.opener i.name
    let attacked := (Probe.attack shell material.attempts i.name).run ran
    ∃ result, after (evaluatedByTest shell script tainted i) ran = (result, attacked.2) ∧
      (attacked.1 = false → result = .ok []) := by
  intro material attacked
  have hexec : after (evaluatedByTest shell script tainted i) ran =
      after (if attacked.1 then do
        let finding ← ExceptT.mk (pure
          (injected script i.line i.column (some (String.ofList line)) Wording.validateIndices))
        return [finding]
      else return []) attacked.2 := by
    rw [evaluatedByTest, if_pos h, hline, after_bind, after_mk]
    simp only
    rw [after_bind, after_lift]
  rw [hexec]
  cases attacked.1 with
  | false => exact ⟨.ok [], rfl, fun _ => rfl⟩
  | true =>
    cases injected script i.line i.column (some (String.ofList line)) Wording.validateIndices with
    | ok finding => exact ⟨.ok [finding], rfl, nofun⟩
    | error fault => exact ⟨.error fault, rfl, nofun⟩

end

/-- The texts that a check runs are scripts of conditions that are tried for the
tests that are probed. -/
theorem evaluatedByTests_ran (answers : List String → String → Transcript) (script : Script)
    (tainted : NameSet) (injectable : List Injectable) (ran : List String) :
    ∃ tried : List String,
      (∀ c ∈ tried, ∃ p ∈ probed script tainted injectable, c ∈ trialsOn p.1 p.2) ∧
      (after (evaluatedByTests (Probe.recorded answers) script tainted injectable) ran).2 =
        ran ++ tried.map Probe.script := by
  rw [evaluatedByTests, after_map_snd]
  induction injectable generalizing ran with
  | nil => exact ⟨[], nofun, (List.append_nil ran).symm⟩
  | cons i is ih =>
    rw [after_mapM_cons_snd, probed]
    by_cases hi : i.name ∈ tainted
    · rw [if_pos hi]
      cases hline : lineAt script.lines i.line with
      | error fault =>
        rw [after_evaluatedByTest_error _ script hi hline]
        exact ⟨[], nofun, (List.append_nil ran).symm⟩
      | ok line =>
        obtain ⟨result, hafter, -⟩ :=
          after_evaluatedByTest_line (Probe.recorded answers) script hi hline ran
        obtain ⟨first, hfirst, hran⟩ := Probe.attack_ran answers
          (Probe.extract (String.ofList line) i.opener i.name).attempts i.name ran
        have hhere (c : String) (hc : c ∈ first) :
            ∃ p ∈ (i, String.ofList line) :: probed script tainted is, c ∈ trialsOn p.1 p.2 :=
          ⟨(i, String.ofList line), List.mem_cons_self, hfirst.subset hc⟩
        rw [hafter, hran]
        cases result with
        -- The finding could not be made, so the tests behind this one are not probed.
        | error fault => exact ⟨first, hhere, rfl⟩
        | ok found =>
          obtain ⟨rest, hrest, hran'⟩ := ih (ran ++ first.map Probe.script)
          refine ⟨first ++ rest, fun c hc => ?_, ?_⟩
          · rcases List.mem_append.1 hc with hc | hc
            · exact hhere c hc
            · obtain ⟨p, hp, hcp⟩ := hrest c hc
              exact ⟨p, List.mem_cons_of_mem _ hp, hcp⟩
          · simp only [hran', List.map_append, List.append_assoc]
    · rw [if_neg hi, after_evaluatedByTest_clean _ script hi]
      exact ih ran

/-- If nothing tells, all conditions are tried for all tests that are probed. -/
theorem evaluatedByTests_silence (script : Script) (tainted : NameSet)
    (injectable : List Injectable) (ran : List String) :
    (after (evaluatedByTests (Probe.recorded fun _ _ => Probe.silence) script tainted injectable)
        ran).2 =
      ran ++ ((probed script tainted injectable).flatMap fun p => trialsOn p.1 p.2).map
        Probe.script := by
  rw [evaluatedByTests, after_map_snd]
  induction injectable generalizing ran with
  | nil => exact (List.append_nil ran).symm
  | cons i is ih =>
    rw [after_mapM_cons_snd, probed]
    by_cases hi : i.name ∈ tainted
    · rw [if_pos hi]
      cases hline : lineAt script.lines i.line with
      | error fault =>
        rw [after_evaluatedByTest_error _ script hi hline]
        exact (List.append_nil ran).symm
      | ok line =>
        obtain ⟨result, hafter, hresult⟩ := after_evaluatedByTest_line
          (Probe.recorded fun _ _ => Probe.silence) script hi hline ran
        rw [Probe.attack_silence] at hafter hresult
        rw [hafter, hresult rfl]
        simp only [ih, List.flatMap_cons, List.map_append, List.append_assoc]
        rfl
    · rw [if_neg hi, after_evaluatedByTest_clean _ script hi]
      exact ih ran

/-! ## Contained probes -/

/-- A line that has nothing but tests to offer: the opener of the test is on it,
unless the line is blank, and each condition that mentions the variable stands
between brackets and starts no command substitution. A name that is not plain may
be part of the brackets, so that the conditions have to be seen as they are tried. -/
def Harmless (i : Injectable) (line : String) : Prop :=
  let content := Text.trim Text.isBlank line.toList
  if Probe.PlainName i.name then
    (Text.find? i.opener.toList content = none → content = []) ∧
      ∀ start ∈ Text.find? i.opener.toList content,
        ∀ condition ∈ Probe.conditionsOf content i.opener i.name start,
          Probe.closer i.opener ≠ "" ∧ ¬Text.Substitutes condition
  else ∀ c ∈ trialsOn i line, Probe.Contained c

theorem trialsOn_contained_iff (i : Injectable) (line : String) :
    (∀ c ∈ trialsOn i line, Probe.Contained c) ↔ Harmless i line := by
  unfold Harmless
  by_cases hname : Probe.PlainName i.name
  · rw [if_pos hname]
    unfold trialsOn Probe.extract
    cases hfind : Text.find? i.opener.toList (Text.trim Text.isBlank line.toList) with
    -- Without its opener the line itself is tried, one character at a time.
    | none =>
      have hcharacter (c : Char) : ¬Probe.Contained (String.ofList [c]) :=
        Probe.not_contained_of_short (by simp)
      simp only [hfind, Probe.Material.attempts, String.toList_ofList]
      rw [Probe.forall_mem_trials]
      · simp only [List.forall_mem_map, hcharacter]
        simp [List.eq_nil_iff_forall_not_mem]
      · simp only [List.forall_mem_map, hcharacter, iff_false]
        exact fun c _ => Probe.not_contained_substitute_character hname c
    | some start =>
      simp only [hfind, Probe.Material.attempts]
      rw [Probe.forall_mem_trials]
      · simp [Probe.contained_bracket]
      · simp only [List.forall_mem_map]
        exact fun condition _ => Probe.contained_substitute_bracket hname i.opener condition
  · rw [if_neg hname]

/-- Whatever a shell answers, the texts it is given to probe tests are scripts of
contained conditions, exactly if every line that is probed is harmless. -/
theorem evaluatedByTests_contained_iff (script : Script) (tainted : NameSet)
    (injectable : List Injectable) :
    (∀ answers, ∀ text ∈
        (after (evaluatedByTests (Probe.recorded answers) script tainted injectable) []).2,
        ∃ condition, text = Probe.script condition ∧ Probe.Contained condition) ↔
      ∀ p ∈ probed script tainted injectable, Harmless p.1 p.2 := by
  constructor
  -- A shell that never tells anything is asked to run all there is.
  · intro h p hp
    refine (trialsOn_contained_iff p.1 p.2).1 fun c hc => ?_
    have hran := evaluatedByTests_silence script tainted injectable []
    have hmem : c ∈ (probed script tainted injectable).flatMap fun p => trialsOn p.1 p.2 :=
      List.mem_flatMap.2 ⟨p, hp, hc⟩
    obtain ⟨condition, hcondition, hcontained⟩ := h (fun _ _ => Probe.silence) (Probe.script c)
      (by rw [hran, List.nil_append]; exact List.mem_map_of_mem hmem)
    rwa [Probe.script_injective hcondition]
  · intro h answers text htext
    obtain ⟨tried, htried, hran⟩ := evaluatedByTests_ran answers script tainted injectable []
    rw [hran, List.nil_append] at htext
    obtain ⟨c, hc, rfl⟩ := List.mem_map.1 htext
    obtain ⟨p, hp, hcp⟩ := htried c hc
    exact ⟨c, rfl, (trialsOn_contained_iff p.1 p.2).2 (h p hp) c hcp⟩

/-- The script `[[ $x -eq $(id) ]]`. -/
def comparing : Script := .ofText "[[ $x -eq $(id) ]]"

/-- The variable in the test of `comparing`. -/
def compared : Injectable := { name := "x", line := 0, column := 4, opener := "[[" }

/-- The test of `comparing` is tried with its command substitution. -/
theorem evaluatedByTests_not_contained_comparing :
    ¬∀ answers, ∀ text ∈
      (after (evaluatedByTests (Probe.recorded answers) comparing (NameSet.ofList ["x"])
        [compared]) []).2,
      ∃ condition, text = Probe.script condition ∧ Probe.Contained condition := by
  intro h
  have hran : (after (evaluatedByTests (Probe.recorded fun _ _ => Probe.silence) comparing
      (NameSet.ofList ["x"]) [compared]) []).2 = [Probe.script "[[  $var -eq $(id)  ]]"] := by
    decide +kernel
  have hsubstitutes : Text.Substitutes "[[  $var -eq $(id)  ]]".toList := by decide +kernel
  obtain ⟨condition, hcondition, hcontained⟩ :=
    h (fun _ _ => Probe.silence) (Probe.script "[[  $var -eq $(id)  ]]")
      (by rw [hran]; exact List.mem_singleton_self _)
  exact hcontained.inert (Probe.script_injective hcondition ▸ hsubstitutes)

end Check

end ShellAudit
