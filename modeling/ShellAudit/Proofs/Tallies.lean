-- SUMMARY: The statistics count every script once, and their tallies hold every finding once.
import Mathlib.Data.List.Induction
import Mathlib.Data.List.Nodup
import ShellAudit.Statistics
import ShellAudit.Proofs.Reports

/-!
# The statistics add up

A script is examined in three steps, and each of them may stop. Whatever happens, the script is
counted once: it has a result, or one of two counters has grown by one. A tally lists its findings
twice, all together and under their severities. The findings under a severity are those of the whole
that have it, in their order, and the severities are in the order in which they appear in the whole.
This is kept when a finding is added and when tallies are merged, so what is printed of a tally can
be told from the whole.
-/

namespace ShellAudit

open Finding (group group_append flatMap_group_perm length_group_add)
open Report (listed)

namespace Tally

/-! ## Findings under a severity -/

theorem listed_cons (t : Severity) (fs : List Finding) (entries : List (Severity × List Finding))
    (s : Severity) : listed ((t, fs) :: entries) s = if t = s then fs else listed entries s := by
  by_cases h : t = s
  · simp [listed, h]
  · have hne : (s == t) = false := by simpa using Ne.symm h
    simp [listed, List.lookup_cons, h, hne]

theorem listed_of_not_mem {entries : List (Severity × List Finding)} {s : Severity}
    (h : s ∉ entries.map Prod.fst) : listed entries s = [] := by
  induction entries with
  | nil => rfl
  | cons e entries ih =>
    obtain ⟨hne, hrest⟩ := not_or.1 (fun hmem => h (List.mem_cons.2 hmem))
    rw [listed_cons, if_neg (Ne.symm hne), ih hrest]

theorem listed_extend (s : Severity) (fs : List Finding)
    (entries : List (Severity × List Finding)) (t : Severity) :
    listed (extend s fs entries) t = listed entries t ++ if s = t then fs else [] := by
  induction entries with
  | nil =>
    rw [extend, listed_cons]
    rfl
  | cons e entries ih =>
    obtain ⟨u, gs⟩ := e
    rw [extend]
    by_cases hu : u = s
    · subst hu
      rw [if_pos rfl, listed_cons, listed_cons]
      by_cases ht : u = t <;> simp [ht]
    · rw [if_neg hu, listed_cons, listed_cons, ih]
      by_cases ht : u = t
      · subst ht
        simp [Ne.symm hu]
      · simp [ht]

/-! ## Severities in the order of their appearance -/

/-- Puts a severity behind those that have appeared, unless it is one of them. -/
def appear (seen : List Severity) (s : Severity) : List Severity :=
  if s ∈ seen then seen else seen ++ [s]

theorem keys_extend (s : Severity) (fs : List Finding) (entries : List (Severity × List Finding)) :
    (extend s fs entries).map Prod.fst = appear (entries.map Prod.fst) s := by
  induction entries with
  | nil => rfl
  | cons e entries ih =>
    obtain ⟨u, gs⟩ := e
    rw [extend]
    by_cases hu : u = s
    · simp [appear, hu]
    · rw [if_neg hu, List.map_cons, ih]
      by_cases hs : s ∈ entries.map Prod.fst <;> simp [appear, hs, Ne.symm hu]

theorem keys_foldl_extend (entries onto : List (Severity × List Finding)) :
    (entries.foldl (fun acc e => extend e.1 e.2 acc) onto).map Prod.fst =
      (entries.map Prod.fst).foldl appear (onto.map Prod.fst) := by
  induction entries generalizing onto with
  | nil => rfl
  | cons e entries ih => rw [List.foldl_cons, ih, keys_extend, List.map_cons, List.foldl_cons]

theorem eraseDups_concat (l : List Severity) (s : Severity) :
    (l ++ [s]).eraseDups = appear l.eraseDups s := by
  rw [List.eraseDups_append]
  by_cases hs : s ∈ l <;> simp [appear, List.removeAll, List.eraseDups_cons, hs]

theorem nodup_eraseDups (l : List Severity) : l.eraseDups.Nodup := by
  induction l using List.reverseRecOn with
  | nil => exact List.nodup_nil
  | append_singleton l s ih =>
    rw [eraseDups_concat, appear]
    split
    · exact ih
    · rename_i hs
      exact ih.append (List.nodup_singleton s) (List.disjoint_singleton.2 hs)

theorem foldl_appear (l l' : List Severity) :
    l'.foldl appear l.eraseDups = (l ++ l').eraseDups := by
  induction l' generalizing l with
  | nil => rw [List.foldl_nil, List.append_nil]
  | cons s l' ih =>
    rw [List.foldl_cons, ← eraseDups_concat, ih, List.append_assoc, List.singleton_append]

theorem eraseDups_append_eraseDups (l l' : List Severity) :
    (l ++ l'.eraseDups).eraseDups = (l ++ l').eraseDups := by
  -- From the end of the list, where one more severity either has appeared or comes last.
  induction l' using List.reverseRecOn with
  | nil => rfl
  | append_singleton l' s ih =>
    rw [eraseDups_concat, appear, ← List.append_assoc]
    split
    · rename_i hs
      have hmem : s ∈ (l ++ l').eraseDups := by
        rw [List.mem_eraseDups] at hs ⊢
        exact List.mem_append_right l hs
      rw [ih, eraseDups_concat, appear, if_pos hmem]
    · rw [← List.append_assoc, eraseDups_concat, eraseDups_concat, ih]

/-- The severities of some findings, in the order in which they first appear. -/
def severitiesOf (fs : List Finding) : List Severity := (fs.map (·.severity)).eraseDups

/-- The findings of a tally under a severity. -/
def under (t : Tally) (s : Severity) : List Finding := listed t.bySeverity s

/-- The severities of a tally. -/
def severities (t : Tally) : List Severity := t.bySeverity.map Prod.fst

/-! ## Interleaved findings -/

/-- The findings under a severity are those of all together that have it, in their order, and the
severities are in the order of their appearance. -/
structure Interleaved (t : Tally) : Prop where
  order : t.severities = severitiesOf t.total
  under_eq : ∀ s, t.under s = group t.total s

theorem Interleaved.nodup {t : Tally} (h : t.Interleaved) : t.severities.Nodup := by
  rw [h.order]
  exact nodup_eraseDups _

theorem interleaved_empty : Interleaved {} := ⟨rfl, fun _ => rfl⟩

theorem Interleaved.record {t : Tally} (h : t.Interleaved) (f : Finding) :
    (t.record f).Interleaved where
  order := by
    have hbefore : t.bySeverity.map Prod.fst = severitiesOf t.total := h.order
    rw [severities, Tally.record, keys_extend, hbefore, severitiesOf, severitiesOf, List.map_append,
      List.map_singleton, eraseDups_concat]
  under_eq s := by
    have hone : group [f] s = if f.severity = s then [f] else [] := by
      by_cases hs : f.severity = s <;> simp [group, hs]
    have hbefore : listed t.bySeverity s = group t.total s := h.under_eq s
    rw [under, Tally.record, listed_extend, hbefore, group_append, hone]

theorem foldl_record {fs : List Finding} {t : Tally} (h : t.Interleaved) :
    (fs.foldl record t).Interleaved ∧ (fs.foldl record t).total = t.total ++ fs := by
  induction fs generalizing t with
  | nil => exact ⟨h, (List.append_nil _).symm⟩
  | cons f fs ih =>
    obtain ⟨hinterleaved, htotal⟩ := ih (h.record f)
    exact ⟨hinterleaved, by rw [List.foldl_cons, htotal, Tally.record, List.append_assoc]; rfl⟩

theorem interleaved_ofFindings (fs : List Finding) : (ofFindings fs).Interleaved :=
  (foldl_record interleaved_empty).1

theorem total_ofFindings (fs : List Finding) : (ofFindings fs).total = fs :=
  (foldl_record interleaved_empty).2

/-- Adding the lists of another tally appends each of them to the list under its severity. -/
theorem listed_foldl_extend {entries : List (Severity × List Finding)}
    (h : (entries.map Prod.fst).Nodup) (onto : List (Severity × List Finding)) (s : Severity) :
    listed (entries.foldl (fun acc e => extend e.1 e.2 acc) onto) s =
      listed onto s ++ listed entries s := by
  induction entries generalizing onto with
  | nil => exact (List.append_nil _).symm
  | cons e entries ih =>
    obtain ⟨t, fs⟩ := e
    obtain ⟨ht, hrest⟩ := List.nodup_cons.1 h
    rw [List.foldl_cons, ih hrest, listed_extend, listed_cons, List.append_assoc]
    by_cases hs : t = s
    · subst hs
      simp [listed_of_not_mem ht]
    · simp [hs]

theorem under_merge {t u : Tally} (hu : u.Interleaved) (s : Severity) :
    (t.merge u).under s = t.under s ++ u.under s :=
  listed_foldl_extend hu.nodup t.bySeverity s

theorem Interleaved.merge {t u : Tally} (ht : t.Interleaved) (hu : u.Interleaved) :
    (t.merge u).Interleaved where
  order := by
    have hfirst : t.bySeverity.map Prod.fst = severitiesOf t.total := ht.order
    have hsecond : u.bySeverity.map Prod.fst = severitiesOf u.total := hu.order
    calc (t.merge u).severities
      _ = (severitiesOf u.total).foldl appear (severitiesOf t.total) := by
        rw [← hfirst, ← hsecond, ← keys_foldl_extend]
        rfl
      _ = severitiesOf (t.total ++ u.total) := by
        rw [severitiesOf, severitiesOf, foldl_appear, eraseDups_append_eraseDups, severitiesOf,
          List.map_append]
  under_eq s := by
    rw [under_merge hu, ht.under_eq, hu.under_eq, ← group_append]
    rfl

/-- The entries of a tally are its severities with what is listed under them. -/
theorem entries_eq {entries : List (Severity × List Finding)} (h : (entries.map Prod.fst).Nodup) :
    entries = (entries.map Prod.fst).map fun s => (s, listed entries s) := by
  induction entries with
  | nil => rfl
  | cons e entries ih =>
    obtain ⟨t, fs⟩ := e
    obtain ⟨ht, hrest⟩ := List.nodup_cons.1 h
    have hothers : (entries.map Prod.fst).map (fun s => (s, listed ((t, fs) :: entries) s)) =
        (entries.map Prod.fst).map fun s => (s, listed entries s) := by
      refine List.map_congr_left fun s hs => ?_
      rw [listed_cons, if_neg fun heq : t = s => ht (heq ▸ hs)]
    rw [List.map_cons, List.map_cons, hothers, ← ih hrest, listed_cons, if_pos rfl]

/-- A tally is told by its findings: their severities in the order of their appearance, each with
the findings that have it. -/
theorem Interleaved.bySeverity_eq {t : Tally} (h : t.Interleaved) :
    t.bySeverity = (severitiesOf t.total).map fun s => (s, group t.total s) := by
  have hlisted : listed t.bySeverity = group t.total := funext h.under_eq
  rw [entries_eq h.nodup, hlisted, ← h.order]
  rfl

/-- The lists under the severities hold the same findings as the whole, each as often. -/
theorem Interleaved.perm {t : Tally} (h : t.Interleaved) :
    (t.bySeverity.flatMap Prod.snd).Perm t.total := by
  have hseverity : ∀ f ∈ t.total, f.severity ∈ severitiesOf t.total :=
    fun f hf => List.mem_eraseDups.2 (List.mem_map_of_mem hf)
  rw [h.bySeverity_eq, List.flatMap_map]
  exact flatMap_group_perm (nodup_eraseDups _) hseverity

/-- The lines that tell how many findings there are, and how many of each severity. -/
def linesOf (fs : List Finding) : List String :=
  ("total: " ++ toString fs.length) :: (severitiesOf fs).map fun s =>
    "SeverityLevel." ++ s.name ++ ": " ++ toString (fs.countP (·.severity = s))

theorem Interleaved.lines_eq {t : Tally} (h : t.Interleaved) : t.lines = linesOf t.total := by
  rw [lines, h.bySeverity_eq, List.map_map, linesOf]
  refine congrArg _ (List.map_congr_left fun s _ => ?_)
  rw [List.countP_eq_length_filter]
  rfl

/-! ## Merged tallies -/

/-- A tally holds the findings of some scripts: all of them, script after script; under each
severity the lists of the scripts under it, one after the other; and both the same findings, the
lists under the severities being interleaved in the whole. The severities are in the order of their
appearance, and what is printed are the numbers of these findings. -/
structure Merges (t : Tally) (scripts : List (List Finding)) : Prop where
  total : t.total = scripts.flatten
  nodup : t.severities.Nodup
  order : t.severities = severitiesOf t.total
  under : ∀ s, t.under s = scripts.flatMap fun fs => (ofFindings fs).under s
  interleaved : ∀ s, t.under s = group t.total s
  perm : (t.bySeverity.flatMap Prod.snd).Perm t.total
  length : (t.under .critical).length + (t.under .high).length + (t.under .medium).length
    + (t.under .low).length = t.total.length
  lines : t.lines = linesOf scripts.flatten

theorem foldl_merge {scripts : List (List Finding)} {t : Tally} (h : t.Interleaved) :
    let merged := (scripts.map ofFindings).foldl merge t
    merged.Interleaved ∧ merged.total = t.total ++ scripts.flatten ∧
      ∀ s, merged.under s = t.under s ++ scripts.flatMap fun fs => (ofFindings fs).under s := by
  induction scripts generalizing t with
  | nil => simpa using h
  | cons fs scripts ih =>
    have hfs := interleaved_ofFindings fs
    obtain ⟨hinterleaved, htotal, hunder⟩ := ih (h.merge hfs)
    refine ⟨hinterleaved, ?_, fun s => ?_⟩
    · rw [List.map_cons, List.foldl_cons, htotal, Tally.merge, total_ofFindings, List.flatten_cons,
        List.append_assoc]
    · rw [List.map_cons, List.foldl_cons, hunder, under_merge hfs, List.flatMap_cons,
        List.append_assoc]

theorem merges_foldl (scripts : List (List Finding)) :
    Merges ((scripts.map ofFindings).foldl merge {}) scripts := by
  obtain ⟨hinterleaved, htotal, hunder⟩ := @foldl_merge scripts {} interleaved_empty
  refine ⟨htotal, hinterleaved.nodup, hinterleaved.order, hunder, hinterleaved.under_eq,
    hinterleaved.perm, ?_, by rw [hinterleaved.lines_eq, htotal]; rfl⟩
  simp only [hinterleaved.under_eq]
  exact length_group_add _

end Tally

/-! ## Jobs that stop or return -/

namespace Job

variable {σ α β : Type}

/-- A job goes from one state of the files and of the outside programs to another one, and gives
a result. -/
def Runs (job : Job (StateM σ) α) (x : State × σ) (result : Except Fault α) (y : State × σ) :
    Prop :=
  (job.exec x.1).run x.2 = ((result, y.1), y.2)

/-- Whatever a job does, it does something. -/
theorem exists_runs (job : Job (StateM σ) α) (x : State × σ) :
    ∃ result y, Runs job x result y :=
  ⟨_, (_, _), rfl⟩

theorem runs_pure (a : α) (x : State × σ) : Runs (pure a) x (.ok a) x := rfl

variable {job : Job (StateM σ) α} {x y z : State × σ} {result : Except Fault β}

theorem Runs.bind {a : α} {next : α → Job (StateM σ) β} (h : Runs job x (.ok a) y)
    (hnext : Runs (next a) y result z) : Runs (job >>= next) x result z := by
  unfold Runs at *
  simp only [exec, ExceptT.run_bind, StateT.run_bind] at *
  rw [h]
  exact hnext

theorem Runs.bind_error {fault : Fault} (h : Runs job x (.error fault) y)
    (next : α → Job (StateM σ) β) : Runs (job >>= next) x (.error fault) y := by
  unfold Runs at *
  simp only [exec, ExceptT.run_bind, StateT.run_bind] at *
  rw [h]
  rfl

theorem Runs.tryCatch_ok {a : α} (h : Runs job x (.ok a) y) (handle : Fault → Job (StateM σ) α) :
    Runs (tryCatch job handle) x (.ok a) y := by
  unfold Runs at *
  simp only [exec, ExceptT.run_tryCatch, StateT.run_bind] at *
  rw [h]
  rfl

theorem Runs.tryCatch_error {fault : Fault} {handle : Fault → Job (StateM σ) α}
    {result : Except Fault α} (h : Runs job x (.error fault) y)
    (hhandle : Runs (handle fault) y result z) : Runs (tryCatch job handle) x result z := by
  unfold Runs at *
  simp only [exec, ExceptT.run_tryCatch, StateT.run_bind] at *
  rw [h]
  exact hhandle

theorem runs_sayAll (lines : List String) (x : State × σ) :
    Runs (sayAll lines) x (.ok ())
      ({ x.1 with
        printed := lines.foldl (fun printed line => printed ++ line ++ "\n") x.1.printed },
        x.2) := by
  induction lines generalizing x with
  | nil => rfl
  | cons line lines ih => exact Runs.bind (y := (_, x.2)) rfl (ih _)

end Job

namespace Statistics

open Job (Runs)

variable {σ α β : Type}

/-- A job that counts failures starts from some counters, and leaves a result and other ones. -/
def Counts (job : Counting (StateM σ) α) (n : Failures) (x : Job.State × σ) (a : α) (n' : Failures)
    (y : Job.State × σ) : Prop :=
  Runs (job.run n) x (.ok (a, n')) y

theorem counts_pure (a : α) (n : Failures) (x : Job.State × σ) : Counts (pure a) n x a n x := rfl

theorem Counts.bind {job : Counting (StateM σ) α} {next : α → Counting (StateM σ) β}
    {n n' n'' : Failures} {x y z : Job.State × σ} {a : α} {b : β} (h : Counts job n x a n' y)
    (hnext : Counts (next a) n' y b n'' z) : Counts (job >>= next) n x b n'' z :=
  Runs.bind h hnext

theorem counts_get (n : Failures) (x : Job.State × σ) :
    Counts (get : Counting (StateM σ) Failures) n x n n x := rfl

theorem counts_lift {job : Job (StateM σ) α} {x y : Job.State × σ} {a : α}
    (h : Runs job x (.ok a) y) (n : Failures) :
    Counts (liftM job : Counting (StateM σ) α) n x a n y :=
  h.bind (Job.runs_pure (a, n) y)

theorem Counts.runs {job : Counting (StateM σ) α} {n n' : Failures} {x y : Job.State × σ} {a : α}
    (h : Counts job n x a n' y) : Runs (job.run' n) x (.ok a) y := by
  rw [StateT.run'_eq, map_eq_pure_bind]
  exact Runs.bind h (Job.runs_pure a y)

theorem counts_attempt_ok {job : Job (StateM σ) α} {x y : Job.State × σ} {a : α}
    (h : Runs job x (.ok a) y) (count : Failures → Failures) (n : Failures) :
    Counts (attempt job count) n x (some a) n y := by
  have hjob : Counts (liftM job >>= fun a => pure (some a)) n x (some a) n y :=
    (counts_lift h n).bind (counts_pure (some a) n y)
  exact Runs.tryCatch_ok hjob _

/-- A job that stops has no result, and is counted. -/
theorem counts_attempt_error {job : Job (StateM σ) α} {x y : Job.State × σ} {fault : Fault}
    (h : Runs job x (.error fault) y) (count : Failures → Failures) (n : Failures) :
    Counts (attempt job count) n x none (count n) y :=
  Runs.tryCatch_error ((h.bind_error _).bind_error _) rfl

/-! ## Trials -/

/-- What comes of the three steps in which a script is examined. -/
inductive Trial where
  | auditStops (fault : Fault)
  | repairStops (found : List Finding) (fault : Fault)
  | secondAuditStops (found : List Finding) (fault : Fault)
  | passes (found left : List Finding)

namespace Trial

/-- The result of a script. -/
def result? : Trial → Option Result
  | passes found left => some { before := .ofFindings found, after := .ofFindings left }
  | _ => none

/-- What a trial makes of the counters. -/
def count : Trial → Failures → Failures
  | auditStops _, n => n.addAudit
  | repairStops _ _, n => n.addRepair
  | secondAuditStops _ _, n => n.addAudit
  | passes _ _, n => n

/-- The findings before and after the repair. -/
def findings? : Trial → Option (List Finding × List Finding)
  | passes found left => some (found, left)
  | _ => none

/-- Whether one of the two audits stops. -/
def stopsInAudit : Trial → Bool
  | auditStops _ => true
  | secondAuditStops _ _ => true
  | _ => false

/-- Whether the repair stops. -/
def stopsInRepair : Trial → Bool
  | repairStops _ _ => true
  | _ => false

end Trial

section

variable (tools : Tools (StateM σ)) (g : Grammar) (v : Job.Verbosity)

/-- The steps of examining the script at a path go as a trial says. -/
inductive Tried (path : String) : Job.State × σ → Trial → Job.State × σ → Prop
  | auditStops {x y : Job.State × σ} {fault : Fault} :
      Runs (Job.auditFile tools g v path) x (.error fault) y → Tried path x (.auditStops fault) y
  | repairStops {x y z : Job.State × σ} {found : List Finding} {fault : Fault} :
      Runs (Job.auditFile tools g v path) x (.ok found) y →
      Runs (Job.repairFile path (repairedPath path) found) y (.error fault) z →
      Tried path x (.repairStops found fault) z
  | secondAuditStops {x y z w : Job.State × σ} {found : List Finding} {fault : Fault} :
      Runs (Job.auditFile tools g v path) x (.ok found) y →
      Runs (Job.repairFile path (repairedPath path) found) y (.ok ()) z →
      Runs (Job.auditFile tools g v (repairedPath path)) z (.error fault) w →
      Tried path x (.secondAuditStops found fault) w
  | passes {x y z w : Job.State × σ} {found left : List Finding} :
      Runs (Job.auditFile tools g v path) x (.ok found) y →
      Runs (Job.repairFile path (repairedPath path) found) y (.ok ()) z →
      Runs (Job.auditFile tools g v (repairedPath path)) z (.ok left) w →
      Tried path x (.passes found left) w

/-- Scripts are tried one after the other. -/
inductive TriedAll : List String → Job.State × σ → List Trial → Job.State × σ → Prop
  | nil {x : Job.State × σ} : TriedAll [] x [] x
  | cons {x y z : Job.State × σ} {path : String} {paths : List String} {trial : Trial}
      {trials : List Trial} :
      Tried tools g v (String.ofList (Text.trim Text.isBlank path.toList)) x trial y →
      TriedAll paths y trials z → TriedAll (path :: paths) x (trial :: trials) z

/-- A script is examined by a trial, and no fault of a step gets out. -/
theorem examine_tried (path : String) (n : Failures) (x : Job.State × σ) :
    ∃ trial y, Tried tools g v path x trial y ∧
      Counts (examine tools g v path) n x trial.result? (trial.count n) y := by
  obtain ⟨first, y, hfirst⟩ := Job.exists_runs (Job.auditFile tools g v path) x
  cases first with
  | error fault =>
    refine ⟨_, y, .auditStops hfirst, ?_⟩
    apply (counts_attempt_error hfirst _ _).bind
    exact counts_pure _ _ y
  | ok found =>
    obtain ⟨repair, z, hrepair⟩ :=
      Job.exists_runs (Job.repairFile path (repairedPath path) found) y
    cases repair with
    | error fault =>
      refine ⟨_, z, .repairStops hfirst hrepair, ?_⟩
      apply (counts_attempt_ok hfirst _ _).bind
      apply (counts_attempt_error hrepair _ _).bind
      exact counts_pure _ _ z
    | ok _ =>
      obtain ⟨second, w, hsecond⟩ :=
        Job.exists_runs (Job.auditFile tools g v (repairedPath path)) z
      cases second with
      | error fault =>
        refine ⟨_, w, .secondAuditStops hfirst hrepair hsecond, ?_⟩
        apply (counts_attempt_ok hfirst _ _).bind
        apply (counts_attempt_ok hrepair _ _).bind
        apply (counts_attempt_error hsecond _ _).bind
        exact counts_pure _ _ w
      | ok left =>
        refine ⟨_, w, .passes hfirst hrepair hsecond, ?_⟩
        apply (counts_attempt_ok hfirst _ _).bind
        apply (counts_attempt_ok hrepair _ _).bind
        apply (counts_attempt_ok hsecond _ _).bind
        exact counts_pure _ _ w

/-- The counters after some trials. -/
def counted (trials : List Trial) (n : Failures) : Failures :=
  trials.foldl (fun n trial => trial.count n) n

theorem examineAll_tried (paths : List String) (n : Failures) (x : Job.State × σ) :
    ∃ trials y, TriedAll tools g v paths x trials y ∧
      Counts (examineAll tools g v paths) n x (trials.map Trial.result?) (counted trials n) y := by
  induction paths generalizing n x with
  | nil => exact ⟨[], x, .nil, counts_pure _ n x⟩
  | cons path paths ih =>
    obtain ⟨trial, y, htried, hrun⟩ :=
      examine_tried tools g v (String.ofList (Text.trim Text.isBlank path.toList)) n x
    obtain ⟨trials, z, htriedAll, hrunAll⟩ := ih (trial.count n) y
    refine ⟨trial :: trials, z, .cons htried htriedAll, ?_⟩
    apply hrun.bind
    apply hrunAll.bind
    exact counts_pure _ _ z

end

theorem TriedAll.length_eq {tools : Tools (StateM σ)} {g : Grammar} {v : Job.Verbosity}
    {paths : List String} {x y : Job.State × σ} {trials : List Trial}
    (h : TriedAll tools g v paths x trials y) : trials.length = paths.length := by
  induction h with
  | nil => rfl
  | cons _ _ ih => rw [List.length_cons, List.length_cons, ih]

/-! ## Collections -/

section

variable (trials : List Trial)

/-- The counters have grown by the number of trials that stop in an audit and in a repair. -/
theorem counted_eq (n : Failures) :
    counted trials n = { audits := n.audits + trials.countP Trial.stopsInAudit
                         repairs := n.repairs + trials.countP Trial.stopsInRepair } := by
  induction trials generalizing n with
  | nil => rfl
  | cons trial trials ih =>
    have hcons : counted (trial :: trials) n = counted trials (trial.count n) := rfl
    rw [hcons, ih, List.countP_cons, List.countP_cons]
    cases trial <;>
      simp [Trial.count, Trial.stopsInAudit, Trial.stopsInRepair, Failures.addAudit,
        Failures.addRepair] <;> omega

/-- Every script has a result or stops in one way. -/
theorem length_eq_results :
    trials.length = (trials.filterMap Trial.result?).length + trials.countP Trial.stopsInAudit
      + trials.countP Trial.stopsInRepair := by
  induction trials with
  | nil => rfl
  | cons trial trials ih =>
    rw [List.length_cons, ih, List.filterMap_cons, List.countP_cons, List.countP_cons]
    cases trial <;> simp [Trial.result?, Trial.stopsInAudit, Trial.stopsInRepair] <;> omega

theorem filterMap_result? :
    trials.filterMap Trial.result? = (trials.filterMap Trial.findings?).map
      fun r => ⟨.ofFindings r.1, .ofFindings r.2⟩ := by
  rw [List.map_filterMap]
  refine congrArg (trials.filterMap ·) (funext fun trial => ?_)
  cases trial <;> rfl

/-- The scripts of some trials. -/
def Collection.ofTrials : Collection := ⟨trials.length, trials.map Trial.result?⟩

/-- A fold over the results that merges one of the two tallies of each. -/
theorem merges_foldl_results {tally : Result → Tally}
    {side : List Finding × List Finding → List Finding}
    (h : ∀ found left, tally ⟨.ofFindings found, .ofFindings left⟩ =
      .ofFindings (side (found, left))) :
    Tally.Merges
      ((trials.map Trial.result?).foldl
        (fun t result => result.elim t fun r => t.merge (tally r)) {})
      ((trials.filterMap Trial.findings?).map side) := by
  let scripts := (trials.filterMap Trial.findings?).map side
  have hfold : (trials.map Trial.result?).foldl
      (fun t result => result.elim t fun r => t.merge (tally r)) {} =
      (scripts.map Tally.ofFindings).foldl Tally.merge {} := by
    simp only [scripts, List.foldl_map, List.foldl_filterMap]
    refine congrArg (fun merge => trials.foldl merge ({} : Tally)) ?_
    funext t trial
    cases trial with
    | passes found left => exact congrArg t.merge (h found left)
    | _ => rfl
  rw [hfold]
  exact Tally.merges_foldl _

/-- The findings of the results before the repairs, script after script. -/
def foundBefore : List Finding := ((trials.filterMap Trial.findings?).map Prod.fst).flatten

/-- The findings of the results after the repairs, script after script. -/
def foundAfter : List Finding := ((trials.filterMap Trial.findings?).map Prod.snd).flatten

theorem merges_before :
    Tally.Merges (Collection.ofTrials trials).before
      ((trials.filterMap Trial.findings?).map Prod.fst) :=
  merges_foldl_results trials fun _ _ => rfl

theorem merges_after :
    Tally.Merges (Collection.ofTrials trials).after
      ((trials.filterMap Trial.findings?).map Prod.snd) :=
  merges_foldl_results trials fun _ _ => rfl

end

/-- What the statistics tell of the scripts of two collections. -/
def account (secure vulnerable : List Trial) : List String :=
  ["TOTAL SECURE SCRIPTS: " ++ toString secure.length,
    "TOTAL VULNERABLE SCRIPTS: " ++ toString vulnerable.length,
    "--------------------------------",
    "TOTAL BEFORE FIXING SECURE SCRIPTS"]
  ++ Tally.linesOf (foundBefore secure)
  ++ ["\n\nTOTAL AFTER FIXING SECURE SCRIPTS"]
  ++ Tally.linesOf (foundAfter secure)
  ++ ["\n\n\nTOTAL BEFORE FIXING VULNERABLE SCRIPTS"]
  ++ Tally.linesOf (foundBefore vulnerable)
  ++ ["\n\nTOTAL AFTER FIXING VULNERABLE SCRIPTS"]
  ++ Tally.linesOf (foundAfter vulnerable)
  ++ ["\n\nFAILED TO ANALYZE:  " ++ toString ((secure ++ vulnerable).countP Trial.stopsInAudit),
    "FAILED TO FIX:  " ++ toString ((secure ++ vulnerable).countP Trial.stopsInRepair)]

theorem summary_ofTrials (trials trials' : List Trial) :
    summary (.ofTrials trials) (.ofTrials trials') (counted (trials ++ trials') {}) =
      account trials trials' := by
  rw [summary, (merges_before trials).lines, (merges_after trials).lines,
    (merges_before trials').lines, (merges_after trials').lines, counted_eq, Nat.zero_add,
    Nat.zero_add]
  rfl

/-- A job tries the scripts of two collections and prints what the statistics tell of them. -/
def Accounts (tools : Tools (StateM σ)) (g : Grammar) (v : Job.Verbosity)
    (job : Job (StateM σ) Unit) (secure vulnerable : List String) (x : Job.State × σ) : Prop :=
  ∃ (trials trials' : List Trial) (y z : Job.State × σ),
    TriedAll tools g v secure x trials y ∧ TriedAll tools g v vulnerable y trials' z ∧
    trials.length = secure.length ∧ trials'.length = vulnerable.length ∧
    Runs job x (.ok ())
      ({ z.1 with
        printed := (account trials trials').foldl (fun printed line => printed ++ line ++ "\n")
          z.1.printed }, z.2)

theorem gather_accounts (tools : Tools (StateM σ)) (g : Grammar) (v : Job.Verbosity)
    (secure vulnerable : List String) (x : Job.State × σ) :
    Accounts tools g v ((gather tools g v secure vulnerable).run' {}) secure vulnerable x := by
  obtain ⟨trials, y, htried, hrun⟩ := examineAll_tried tools g v secure {} x
  obtain ⟨trials', z, htried', hrun'⟩ := examineAll_tried tools g v vulnerable (counted trials {}) y
  refine ⟨trials, trials', y, z, htried, htried', htried.length_eq, htried'.length_eq, ?_⟩
  have hcounted : counted trials' (counted trials {}) = counted (trials ++ trials') {} :=
    List.foldl_append.symm
  rw [← summary_ofTrials, Collection.ofTrials, Collection.ofTrials, htried.length_eq,
    htried'.length_eq, ← hcounted]
  apply Counts.runs
  apply hrun.bind
  apply hrun'.bind
  apply (counts_get _ z).bind
  exact counts_lift (Job.runs_sayAll _ z) _

/-- For every list of scripts and whatever comes of examining them, the results and the counters of
failures are those of the trials. So each script of two collections is counted once: as a result, as
a failed audit or as a failed repair. The tallies before and after the repairs hold the findings of
the results, script after script, both all together and under their severities. And what is printed
are the numbers of the scripts, of these findings and of the failures. -/
theorem statistics_add_up (tools : Tools (StateM σ)) (g : Grammar) (v : Job.Verbosity) :
    (∀ (paths : List String) (n : Failures) (x : Job.State × σ), ∃ trials y,
      TriedAll tools g v paths x trials y ∧ trials.length = paths.length ∧
        Counts (examineAll tools g v paths) n x (trials.map Trial.result?) (counted trials n) y) ∧
      (∀ trials trials' : List Trial,
        let failures := counted trials' (counted trials {})
        failures.audits = trials.countP Trial.stopsInAudit + trials'.countP Trial.stopsInAudit ∧
          failures.repairs =
            trials.countP Trial.stopsInRepair + trials'.countP Trial.stopsInRepair ∧
          trials.length + trials'.length =
            ((trials.filterMap Trial.result?).length + (trials'.filterMap Trial.result?).length)
              + failures.audits + failures.repairs) ∧
      (∀ trials : List Trial,
        let collection := Collection.ofTrials trials
        let findings := trials.filterMap Trial.findings?
        trials.filterMap Trial.result? =
            findings.map (fun r => ⟨.ofFindings r.1, .ofFindings r.2⟩) ∧
          Tally.Merges collection.before (findings.map Prod.fst) ∧
          Tally.Merges collection.after (findings.map Prod.snd)) ∧
      (∀ (secure vulnerable : List String) (x : Job.State × σ),
        Accounts tools g v ((gather tools g v secure vulnerable).run' {}) secure vulnerable x) ∧
      ∀ x : Job.State × σ,
        Accounts tools g v (job tools g v) (scriptsIn x.1.files secureScripts)
          (scriptsIn x.1.files vulnerableScripts) x := by
  refine ⟨fun paths n x => ?_, fun trials trials' => ?_, fun trials => ?_,
    gather_accounts tools g v, fun x => ?_⟩
  · obtain ⟨trials, y, htried, hrun⟩ := examineAll_tried tools g v paths n x
    exact ⟨trials, y, htried, htried.length_eq, hrun⟩
  · have hlength := length_eq_results trials
    have hlength' := length_eq_results trials'
    simp only [counted_eq, Nat.zero_add, true_and]
    omega
  · exact ⟨filterMap_result? trials, merges_before trials, merges_after trials⟩
  · obtain ⟨trials, trials', y, z, htried, htried', hlength, hlength', hrun⟩ :=
      gather_accounts tools g v (scriptsIn x.1.files secureScripts)
        (scriptsIn x.1.files vulnerableScripts) x
    exact ⟨trials, trials', y, z, htried, htried', hlength, hlength', Runs.bind (y := x) rfl hrun⟩

end Statistics

end ShellAudit
