-- SUMMARY: The audit of a script returns, and so does the repair of what it finds.
import ShellAudit.Job
import ShellAudit.Proofs.Checking
import ShellAudit.Proofs.LintReport

/-!
# Audits and repairs that return

An audit asks the linter, surveys the script and runs the checks; a repair goes by the
findings. Positions decide whether all this returns, and positions come from two places.
Those of the survey are right if the tree of the script is regular and its command strings
are placed, those of the linter if its report is about the rows of the script. Only one
finding has no position, that the search path is not set. It is looked up in the row before
the last, so the script needs two rows.
-/

namespace ShellAudit

/-! ## Total correctness -/

/-- From every state with `P`, whatever state the outside programs are in, the step
returns, and what it returns and leaves behind satisfies `Q`. -/
def Completes {τ σ α : Type} (P : τ → Prop) (step : ExceptT Fault (StateT τ (StateM σ)) α)
    (Q : α → τ → Prop) : Prop :=
  ∀ s t, P s → ∃ a s' u, ((ExceptT.run step).run s).run t = ((.ok a, s'), u) ∧ Q a s'

namespace Completes

variable {τ σ α β : Type} {P : τ → Prop} {step : ExceptT Fault (StateT τ (StateM σ)) α}
  {Q : α → τ → Prop}

theorem pure {a : α} (h : ∀ s, P s → Q a s) :
    Completes P (Pure.pure a : ExceptT Fault (StateT τ (StateM σ)) α) Q :=
  fun s t hs => ⟨a, s, t, rfl, h s hs⟩

theorem bind {next : α → ExceptT Fault (StateT τ (StateM σ)) β} {R : β → τ → Prop}
    (h : Completes P step Q) (hnext : ∀ a, Completes (Q a) (next a) R) :
    Completes P (step >>= next) R := by
  intro s t hs
  obtain ⟨a, s', u, hstep, ha⟩ := h s t hs
  obtain ⟨b, s'', v, hb, hR⟩ := hnext a s' u ha
  refine ⟨b, s'', v, ?_, hR⟩
  rw [ExceptT.run_bind, StateT.run_bind, StateT.run_bind, hstep]
  exact hb

/-- What does not depend on the state may be assumed. -/
theorem of_pre {p : Prop} (h : p → Completes P step Q) : Completes (fun s => p ∧ P s) step Q :=
  fun s t hs => h hs.1 s t hs.2

theorem get : Completes P (get : ExceptT Fault (StateT τ (StateM σ)) τ) fun a s => a = s ∧ P s :=
  fun s t hs => ⟨s, s, t, rfl, rfl, hs⟩

theorem modify {f : τ → τ} {Q : Unit → τ → Prop} (h : ∀ s, P s → Q () (f s)) :
    Completes P (modify f : ExceptT Fault (StateT τ (StateM σ)) Unit) Q :=
  fun s t hs => ⟨(), f s, t, rfl, h s hs⟩

/-- A step that does not change the state. -/
theorem mk {x : Except Fault α} (h : ∀ s, P s → Yields x fun a => Q a s) :
    Completes P (ExceptT.mk (Pure.pure x) : ExceptT Fault (StateT τ (StateM σ)) α) Q := by
  intro s t hs
  obtain ⟨a, rfl, ha⟩ := h s hs
  exact ⟨a, s, t, rfl, ha⟩

/-- A step that uses an outside program. -/
theorem lift {x : StateM σ α} (h : ∀ s t, P s → Q (x.run t).1 s) :
    Completes P (ExceptT.lift (StateT.lift x) : ExceptT Fault (StateT τ (StateM σ)) α) Q :=
  fun s t hs => ⟨(x.run t).1, s, (x.run t).2, rfl, h s t hs⟩

end Completes

/-! ## Stages -/

namespace Audit

variable {σ : Type}

/-- The records stand in the rows, and the script has two rows if it does not set its
search path. -/
def Ready (rows : List (List Char)) (desk : Desk) : Prop :=
  desk.survey.StandsIn rows ∧ (Check.setsPath desk.survey = false → 2 ≤ rows.length)

/-- Findings that can be repaired, at most `n` of them about the script as a whole. -/
def Sound (rows : List (List Char)) (n : Nat) (fs : List Finding) : Prop :=
  (∀ f ∈ fs, Repair.Standing (rows.map String.ofList) f) ∧ (fs.filter (·.line = -1)).length ≤ n

section

variable {rows : List (List Char)}

/-- What is tainted does not matter. -/
theorem Ready.taint {desk : Desk} (h : Ready rows desk) (tainted : NameSet) :
    Ready rows { desk with survey := { desk.survey with tainted := tainted } } :=
  ⟨h.1.update desk.survey.functions tainted, h.2⟩

theorem Sound.of_inRows {fs : List Finding} (h : Check.InRows rows fs) (n : Nat) :
    Sound rows n fs := by
  refine ⟨fun f hf => .inl (h f hf), ?_⟩
  rw [List.filter_eq_nil_iff.2]
  · exact Nat.zero_le n
  · intro f hf
    obtain ⟨i, row, hline, -⟩ := h f hf
    simp only [decide_eq_true_eq]
    omega

theorem Sound.mono {n m : Nat} {fs : List Finding} (h : Sound rows n fs) (hnm : n ≤ m) :
    Sound rows m fs := ⟨h.1, Nat.le_trans h.2 hnm⟩

theorem Sound.append {n m : Nat} {fs fs' : List Finding} (h : Sound rows n fs)
    (h' : Sound rows m fs') : Sound rows (n + m) (fs ++ fs') := by
  refine ⟨List.forall_mem_append.2 ⟨h.1, h'.1⟩, ?_⟩
  rw [List.filter_append, List.length_append]
  exact Nat.add_le_add h.2 h'.2

/-- Removing duplicates leaves no finding that was not there. -/
theorem Sound.dedup {n : Nat} {fs : List Finding} (h : Sound rows n fs) :
    Sound rows n (Finding.dedup fs) := by
  refine ⟨fun f hf => h.1 f (Finding.mem_of_mem_dedupOn hf), Nat.le_trans ?_ h.2⟩
  have hfilter := @Finding.filter_line_dedupOn _ id fs (-1)
  simp only [id] at hfilter
  rw [Finding.dedup, hfilter]
  exact (Finding.dedupGroup_sublist _).length_le

end

section

variable {tools : Tools (StateM σ)} {script : Script} (hfeeds : Text.OnlyFeeds script.text.toList)
  (hlint : ∀ t, Yields (Lint.readBytes script ((tools.lint (Lint.target script)).run t).1)
    (Check.InRows (Text.rows script.text.toList)))

include hfeeds hlint

theorem runStage_completes (stage : Stage) :
    Completes (Ready (Text.rows script.text.toList)) (runStage tools script stage) fun fs desk =>
      Sound (Text.rows script.text.toList) ([stage].count .searchPath) fs ∧
        Ready (Text.rows script.text.toList) desk := by
  have check {x : Survey → Except Fault (List Finding)} {n : Nat}
      (h : ∀ desk, Ready (Text.rows script.text.toList) desk →
        Yields (x desk.survey) (Sound (Text.rows script.text.toList) n)) :
      Completes (Ready (Text.rows script.text.toList))
        (do liftExcept (x (← get).survey) : Audit (StateM σ) (List Finding)) fun fs desk =>
          Sound (Text.rows script.text.toList) n fs ∧
            Ready (Text.rows script.text.toList) desk := by
    refine .bind .get fun desk => .mk ?_
    rintro _ ⟨rfl, hdesk⟩
    obtain ⟨fs, hfs, hsound⟩ := h desk hdesk
    exact ⟨fs, hfs, hsound, hdesk⟩
  cases stage with
  | lint =>
    refine .bind (Q := fun report desk => Yields (Lint.readBytes script report)
      (Check.InRows (Text.rows script.text.toList)) ∧ Ready (Text.rows script.text.toList) desk)
      (.lift fun desk t hdesk => ⟨hlint t, hdesk⟩) fun report => .mk ?_
    rintro desk ⟨⟨fs, hfs, hrows⟩, hdesk⟩
    exact ⟨fs, hfs, .of_inRows hrows _, hdesk⟩
  | searchPath =>
    refine check fun desk hdesk => ?_
    obtain ⟨fs, hfs, hlength, hall⟩ := Check.searchPath_yields script desk.survey
    refine ⟨fs, hfs, fun f hf => .inr ?_, Nat.le_trans (List.length_filter_le _ _) hlength⟩
    obtain ⟨hline, hremedy, hpath⟩ := hall f hf
    exact ⟨hline, hremedy, by rw [List.length_map]; exact hdesk.2 hpath⟩
  | scriptName =>
    exact check fun desk hdesk => (Check.scriptName_yields hdesk.1).weaken fun _ h => .of_inRows h _
  | expansion =>
    exact check fun desk hdesk =>
      (Check.expansion_yields hdesk.1 hfeeds).weaken fun _ h => .of_inRows h _
  | injection =>
    refine .bind (Q := fun _ => Ready (Text.rows script.text.toList))
      (.modify fun desk hdesk => hdesk.taint _) fun _ => .bind .get fun desk => ?_
    refine .bind (Q := fun result now =>
      Yields result (Check.InRows (Text.rows script.text.toList)) ∧
        Ready (Text.rows script.text.toList) now) (.lift ?_) fun result => .mk ?_
    · rintro _ t ⟨rfl, hdesk⟩
      obtain ⟨fs, u, hfs, hrows⟩ :=
        Check.injection_answers hdesk.1 hfeeds tools.shell desk.survey.tainted t
      exact ⟨⟨fs, by rw [hfs], hrows⟩, hdesk⟩
    · rintro now ⟨⟨fs, hfs, hrows⟩, hnow⟩
      exact ⟨fs, hfs, .of_inRows hrows _, hnow⟩

omit hfeeds hlint in
theorem print_completes (line : String) :
    Completes (Ready (Text.rows script.text.toList)) (print line : Audit (StateM σ) Unit)
      fun _ => Ready (Text.rows script.text.toList) :=
  .modify fun _ hdesk => hdesk

omit hfeeds hlint in
theorem tell_completes (verbose : Bool) (line : String) :
    Completes (Ready (Text.rows script.text.toList)) (tell verbose line : Audit (StateM σ) Unit)
      fun _ => Ready (Text.rows script.text.toList) := by
  unfold tell
  split
  · exact print_completes line
  · exact .pure fun _ hdesk => hdesk

/-- Only the check of the search path speaks of the script as a whole. -/
theorem runStages_completes (verbose : Bool) (stages : List Stage) :
    Completes (Ready (Text.rows script.text.toList)) (runStages tools verbose script stages)
      fun fs _ => Sound (Text.rows script.text.toList) (stages.count .searchPath) fs := by
  induction stages with
  | nil => exact .pure fun _ _ => .of_inRows .nil _
  | cons stage rest ih =>
    have hcount : (stage :: rest).count .searchPath =
        [stage].count .searchPath + rest.count .searchPath := by
      rw [← List.singleton_append, List.count_append]
    rw [hcount]
    unfold runStages
    refine .bind (tell_completes verbose _) fun _ =>
      .bind (runStage_completes hfeeds hlint stage) fun found => .of_pre fun hfound => ?_
    split
    · exact .bind (print_completes _) fun _ => .pure fun _ _ => hfound.mono (Nat.le_add_right _ _)
    · exact .bind (tell_completes verbose _) fun _ => .bind ih fun more =>
        .pure fun _ hmore => hfound.append hmore

theorem findings_completes (verbose : Bool) :
    Completes (Ready (Text.rows script.text.toList)) (findings tools verbose script) fun fs _ =>
      Sound (Text.rows script.text.toList) 1 fs :=
  .bind (runStages_completes hfeeds hlint verbose Stage.all) fun _ =>
    .pure fun _ hfound => hfound.dedup

end

end Audit

/-! ## Reports -/

namespace Lint

/-- The entry is about a row of the script. Where it asks for quotes, it points into the
row, and to a dollar sign or behind one if a variable is to be quoted. -/
def Entry.PointsInto (rows : List (List Char)) (e : Entry) : Prop :=
  ∃ row, rows[e.number - 1]? = some row ∧ ∀ info ∈ e.infos, ∀ t ∈ triggers info,
    ∀ remedy ∈ Repair.Remedy.ofDescription? t.description,
      (info.takeWhile (· = ' ')).length < row.length ∧
        (remedy = .quoteVariable → '$' ∈ row.take ((info.takeWhile (· = ' ')).length + 1))

/-- A report about a script that can be read. -/
structure Report.About (script : Script) (r : Report) : Prop where
  wellFormed : r.WellFormed (headOf script)
  pointsInto : ∀ e ∈ r.entries, e.PointsInto (Text.rows script.text.toList)

theorem findings_inRows {script : Script} {e : Entry} (hnumber : 1 ≤ e.number)
    (h : e.PointsInto (Text.rows script.text.toList)) :
    Check.InRows (Text.rows script.text.toList) (e.findings script) := by
  obtain ⟨row, hrow, hinfos⟩ := h
  intro f hf
  obtain ⟨info, hinfo, hf⟩ := List.mem_flatMap.1 hf
  obtain ⟨t, ht, rfl⟩ := List.mem_map.1 hf
  refine ⟨e.number - 1, String.ofList row, ?_, rfl, ?_, fun remedy hremedy => ?_⟩
  · simp only [placed]
    omega
  · rw [List.getElem?_map, hrow]
    rfl
  · rw [String.toList_ofList]
    exact ⟨_, rfl, hinfos info ((List.takeWhile_sublist _).subset hinfo) t ht remedy hremedy⟩

theorem readBytes_yields {script : Script} {path : String} (hpath : script.path = some path)
    (hline : Text.OneLine path.toList) {r : Report} (h : r.About script) :
    Yields (readBytes script (r.bytes script)) (Check.InRows (Text.rows script.text.toList)) := by
  have hhead : Text.OneLine (headOf script) := by
    refine headOf_oneLine fun path' hpath' => ?_
    cases Option.some.inj (hpath.symm.trans hpath')
    exact hline
  rw [readBytes_bytes]
  refine ⟨_, read_text hhead h.wellFormed.1 h.wellFormed.2, fun f hf => ?_⟩
  obtain ⟨e, he, hf⟩ := List.mem_flatMap.1 hf
  exact findings_inRows (h.wellFormed.1.2 e he).1 (h.pointsInto e he) f hf

end Lint

/-! ## Files -/

/-- Whether a text can be written does not depend on the text. -/
theorem FileStore.write_returns {files written : FileStore} {path text : String}
    (h : files.write path text = .ok written) (text' : String) :
    ∃ written', files.write path text' = .ok written' := by
  have writeAt (place : Place) (h : files.writeAt text place = .ok written) :
      ∃ written', files.writeAt text' place = .ok written' := by
    cases place with
    | file | vacant => exact ⟨_, rfl⟩
    | directory => cases h
    | device device =>
      cases device with
      | null | stream => exact ⟨_, rfl⟩
      | refusing => cases h
  unfold write at h ⊢
  split at h
  · cases h
  · split at h
    · cases h
    · rename_i place _ hslash
      rw [if_neg hslash]
      exact writeAt place h

theorem Script.ofFile_eq {files : FileStore} {path : String} {script : Script}
    (h : Script.ofFile files path = .ok script) :
    ∃ text, files.readText path = .ok text ∧ script.path = some path ∧
      script.text = String.ofList (Text.expandTabs text.toList) := by
  unfold ofFile at h
  split at h
  · rename_i text htext
    cases h
    exact ⟨text, htext, rfl, rfl⟩
  · cases h

/-- The rows that are repaired are those of the script. -/
theorem Repair.rowsOf_eq (text : String) :
    rowsOf text = (Text.rows (Text.expandTabs text.toList)).map String.ofList := by
  rw [Text.rows_expandTabs, List.map_map]
  rfl

/-! ## Jobs -/

namespace Job

variable {σ : Type} {files : FileStore}

theorem sayAll_completes (lines : List String) :
    Completes (·.files = files) (sayAll lines : Job (StateM σ) Unit) fun _ s =>
      s.files = files := by
  induction lines with
  | nil => exact .pure fun _ hs => hs
  | cons line lines ih =>
    exact .bind (Q := fun _ s => s.files = files) (.modify fun _ hs => hs) fun _ => ih

theorem survey_completes {g : Grammar} {v : Verbosity} {script : Script} {surveyed : Survey}
    (h : (Survey.ofScript g script.text).result = .ok surveyed) :
    Completes (·.files = files) (survey g v script : Job (StateM σ) Survey) fun found s =>
      found = surveyed ∧ s.files = files :=
  .bind (sayAll_completes _) fun _ => .mk fun _ hs => ⟨surveyed, h, rfl, hs⟩

section

variable {tools : Tools (StateM σ)} {script : Script} (hfeeds : Text.OnlyFeeds script.text.toList)
  (hlint : ∀ t, Yields (Lint.readBytes script ((tools.lint (Lint.target script)).run t).1)
    (Check.InRows (Text.rows script.text.toList)))

include hfeeds hlint

theorem auditOnce_completes {surveyed : Survey}
    (hready : Audit.Ready (Text.rows script.text.toList) { survey := surveyed }) (v : Verbosity) :
    Completes (·.files = files) (auditOnce tools v script surveyed) fun r s =>
      Yields r.1 (Audit.Sound (Text.rows script.text.toList) 1) ∧ s.files = files := by
  refine .bind (Q := fun r s => Yields r.1 (Audit.Sound (Text.rows script.text.toList) 1) ∧
    s.files = files) (.lift fun s t hs => ⟨?_, hs⟩) fun r => .of_pre fun hr => ?_
  · obtain ⟨fs, desk, u, hrun, hsound⟩ :=
      Audit.findings_completes hfeeds hlint v.verbose { survey := surveyed } t hready
    exact ⟨fs, congrArg (fun r => r.1.1) hrun, hsound⟩
  · exact .bind (sayAll_completes _) fun _ => .pure fun _ hs => ⟨hr, hs⟩

/-- The audit of a file returns, and leaves the files alone. -/
theorem auditFile_completes {g : Grammar} {path : String} {surveyed : Survey}
    (hscript : Script.ofFile files path = .ok script)
    (hsurvey : (Survey.ofScript g script.text).result = .ok surveyed)
    (hready : Audit.Ready (Text.rows script.text.toList) { survey := surveyed }) (v : Verbosity) :
    Completes (·.files = files) (auditFile tools g v path) fun fs s =>
      Audit.Sound (Text.rows script.text.toList) 1 fs ∧ s.files = files := by
  refine .bind .get fun now => .bind (Q := fun found s => found = script ∧ s.files = files)
    (.mk ?_) fun found => .of_pre ?_
  · rintro _ ⟨rfl, hs⟩
    exact ⟨script, by rw [hs, hscript], rfl, hs⟩
  rintro rfl
  refine .bind (survey_completes hsurvey) fun found => .of_pre ?_
  rintro rfl
  refine .bind (auditOnce_completes hfeeds hlint hready v) fun r => .of_pre ?_
  rintro ⟨fs, hfs, hsound⟩
  exact .mk fun s hs => ⟨fs, hfs, hsound, hs⟩

end

theorem repairFile_completes {path output text : String} {fs : List Finding}
    (hread : files.readText path = .ok text) (hfs : Repair.Repairable (Repair.rowsOf text) fs)
    (hwrite : ∃ written, files.write output "" = .ok written) :
    Completes (·.files = files) (repairFile path output fs : Job (StateM σ) Unit)
      fun _ _ => True := by
  obtain ⟨repaired, hrepaired⟩ := Repair.all_returns hfs
  obtain ⟨_, hwrite⟩ := hwrite
  obtain ⟨written, hwritten⟩ := FileStore.write_returns hwrite (String.join repaired)
  have repairs : Completes (·.files = files)
      (repairRows (Repair.rowsOf text) output fs : Job (StateM σ) _) fun r _ => r.1 = .ok () := by
    unfold repairRows
    rw [hrepaired]
    refine .bind .get fun s => ?_
    rintro _ t ⟨rfl, hs⟩
    simp only [hs, hwritten]
    exact ⟨_, _, t, rfl, rfl⟩
  refine .bind .get fun now => .bind (Q := fun found s => found = text ∧ s.files = files)
    (.mk ?_) fun found => .of_pre ?_
  · rintro _ ⟨rfl, hs⟩
    exact ⟨text, by rw [hs, hread], rfl, hs⟩
  rintro rfl
  exact .bind repairs fun r => .mk fun _ hr => ⟨(), hr, trivial⟩

/-- The audit of a script returns its findings, and the repair of the findings returns, for
every script whose tree is regular, whose command strings are placed in its rows, and about
which the linter gives a report that points into it, if the script has two rows or sets its
search path. -/
theorem auditFile_then_repairFile_return (tools : Tools (StateM σ)) (g : Grammar) (v : Verbosity)
    {path output : String} {script : Script} {root : Node} {functions : List String} {depth : Nat}
    (hscript : Script.ofFile files path = .ok script) (hpath : Text.OneLine path.toList)
    (hfeeds : Text.OnlyFeeds script.text.toList)
    (hlaid : ∀ text tree, g.tree? text = some tree → tree.Laid 0 text.utf8ByteSize)
    (hroot : g.parse? script.text = some root)
    (hregular : root.Every (Node.Regular functions (Text.rows script.text.toList)))
    (hembeds : root.Every
      (Node.Embeds g.parse? functions (Text.rows script.text.toList) depth 0 0))
    (hlint : ∀ t, ∃ report : Lint.Report, report.About script ∧
      ((tools.lint (Lint.target script)).run t).1 = report.bytes script)
    (hrows : 2 ≤ (Text.rows script.text.toList).length ∨
      ∀ survey, (Survey.ofScript g script.text).result = .ok survey → Check.setsPath survey = true)
    (hwrite : ∃ written, files.write output "" = .ok written)
    (s : State) (hs : s.files = files) (t : σ) :
    ∃ found s' u s'' u', ((auditFile tools g v path).exec s).run t = ((.ok found, s'), u) ∧
      ((repairFile path output found : Job (StateM σ) Unit).exec s').run u =
        ((.ok (), s''), u') := by
  obtain ⟨text, hread, hscriptPath, htext⟩ := Script.ofFile_eq hscript
  obtain ⟨surveyed, hsurveyed, hstands⟩ := Survey.ofScript_standsIn hlaid hroot hregular hembeds
  have hready : Audit.Ready (Text.rows script.text.toList) { survey := surveyed } := by
    refine ⟨hstands, fun hunset => hrows.elim id fun hsets => ?_⟩
    rw [hsets surveyed hsurveyed] at hunset
    cases hunset
  have hreport (t : σ) : Yields (Lint.readBytes script ((tools.lint (Lint.target script)).run t).1)
      (Check.InRows (Text.rows script.text.toList)) := by
    obtain ⟨report, habout, hbytes⟩ := hlint t
    rw [hbytes]
    exact Lint.readBytes_yields hscriptPath hpath habout
  obtain ⟨found, s', u, haudit, hsound, hfiles⟩ :=
    auditFile_completes hfeeds hreport hscript hsurveyed hready v s t hs
  have hrepairable : Repair.Repairable (Repair.rowsOf text) found := by
    rw [htext, String.toList_ofList] at hsound
    rw [Repair.rowsOf_eq]
    refine ⟨hsound.1, hsound.2, fun row hrow htab => ?_⟩
    obtain ⟨chars, hchars, rfl⟩ := List.mem_map.1 hrow
    rw [String.toList_ofList] at htab
    refine Text.not_mem_expandTabsFrom 0 text.toList ?_
    rw [← Text.expandTabs, ← Text.flatten_rows (Text.expandTabs text.toList)]
    exact List.mem_flatten_of_mem hchars htab
  obtain ⟨⟨⟩, s'', u', hrepair, -⟩ := repairFile_completes hread hrepairable hwrite s' u hfiles
  exact ⟨found, s', u, s'', u', haudit, hrepair⟩

/-! ### Single scripts -/

/-- A directory with one script. -/
def holding (text : String) : State :=
  { files := .ofFiles ["home"] [("a.sh", text.toUTF8)] }

/-- A script that reads variables without quotes: in an assignment, in a command string that
a function runs, and behind a character of two bytes. -/
def unquoting : Script where
  path := some "a.sh"
  text :=
    "PATH=$HOME # ą\nf() \x7b bash -c \"x=$1; echo $x\"; \x7d\necho \"ą\" $x; f y\n"
  rows :=
    ["PATH=$HOME # ą\n", "f() \x7b bash -c \"x=$1; echo $x\"; \x7d\n",
      "echo \"ą\" $x; f y\n"]

/-- An expansion of one variable. -/
def reading (start stop : Nat) : Tree :=
  ⟨.simpleExpansion, start, stop,
    [⟨.other "$", start, start + 1, []⟩, ⟨.variableName, start + 1, stop, []⟩]⟩

/-- The name of a command, in one word. -/
def naming (start stop : Nat) : Tree := ⟨.commandName, start, stop, [⟨.word, start, stop, []⟩]⟩

def unquotingTree : Tree :=
  ⟨.program, 0, 67,
    [⟨.variableAssignment, 0, 10,
        [⟨.variableName, 0, 4, []⟩, ⟨.other "=", 4, 5, []⟩, reading 5 10]⟩,
      ⟨.other "comment", 11, 15, []⟩,
      ⟨.functionDefinition, 16, 48,
        [⟨.word, 16, 17, []⟩, ⟨.other "(", 17, 18, []⟩, ⟨.other ")", 18, 19, []⟩,
          ⟨.compoundStatement, 20, 48,
            [⟨.command, 22, 45,
              [naming 22 26, ⟨.word, 27, 29, []⟩,
                ⟨.string, 30, 45, [reading 33 35, reading 42 44]⟩]⟩]⟩]⟩,
      ⟨.command, 49, 61, [naming 49 53, ⟨.string, 54, 58, []⟩, reading 59 61]⟩,
      ⟨.command, 63, 66, [naming 63 64, ⟨.word, 65, 66, []⟩]⟩]⟩

/-- The tree of the command string. -/
def unquotingString : Tree :=
  ⟨.program, 0, 13,
    [⟨.variableAssignment, 0, 4,
        [⟨.variableName, 0, 1, []⟩, ⟨.other "=", 1, 2, []⟩, reading 2 4]⟩,
      ⟨.command, 6, 13, [naming 6 10, reading 11 13]⟩]⟩

def unquotingGrammar : Grammar where
  entries := [(unquoting.text, some unquotingTree), ("x=$1; echo $x", some unquotingString)]

/-- A report that asks for quotes in the last row. -/
def unquotingReport : Lint.Report where
  entries :=
    [{ number := 3
       source := "echo \"ą\" $x; f y".toList
       infos :=
        ["         ^-- SC2086 (info): Double quote to prevent globbing.".toList] }]

/-- Tools that give a report and print nothing. -/
def reporting (report : ByteArray) : Tools (StateM Unit) where
  lint _ := pure report
  shell _ := pure ⟨"", ""⟩

theorem auditFile_then_repairFile_return_unquoting :
    Script.ofFile (holding unquoting.text).files "a.sh" = .ok unquoting ∧
    (unquotingTree.resolve (Tree.bytes unquoting.text)).Every
      (Node.Regular ["f"] (Text.rows unquoting.text.toList)) ∧
    (unquotingTree.resolve (Tree.bytes unquoting.text)).Every
      (Node.Embeds unquotingGrammar.parse? ["f"] (Text.rows unquoting.text.toList) 1 0 0) ∧
    unquotingReport.About unquoting ∧
    ∃ found s' u s'' u',
      ((auditFile (reporting (unquotingReport.bytes unquoting)) unquotingGrammar {} "a.sh").exec
        (holding unquoting.text)).run () = ((.ok found, s'), u) ∧
      ((repairFile "a.sh" "b.sh" found : Job (StateM Unit) Unit).exec s').run u =
        ((.ok (), s''), u') := by
  have hscript : Script.ofFile (holding unquoting.text).files "a.sh" = .ok unquoting := by
    decide +kernel
  have hlaid : ∀ text tree, unquotingGrammar.tree? text = some tree →
      tree.Laid 0 text.utf8ByteSize :=
    unquotingGrammar.laid_of_entries (by
      simp [unquotingGrammar, unquotingTree, unquotingString, reading, naming, Tree.Laid,
        Tree.LaidAll]
      decide)
  have hroot : unquotingGrammar.parse? unquoting.text =
      some (unquotingTree.resolve (Tree.bytes unquoting.text)) := by
    rw [Grammar.parse?]
    rfl
  have hregular : (unquotingTree.resolve (Tree.bytes unquoting.text)).Every
      (Node.Regular ["f"] (Text.rows unquoting.text.toList)) := by
    decide +kernel
  have hembeds : (unquotingTree.resolve (Tree.bytes unquoting.text)).Every
      (Node.Embeds unquotingGrammar.parse? ["f"] (Text.rows unquoting.text.toList) 1 0 0) := by
    decide +kernel
  have habout : unquotingReport.About unquoting := by
    refine ⟨by decide +kernel,
      List.forall_mem_singleton.2 ⟨"echo \"ą\" $x; f y\n".toList, ?_, ?_⟩⟩
    · decide +kernel
    · decide +kernel
  refine ⟨hscript, hregular, hembeds, habout, ?_⟩
  exact auditFile_then_repairFile_return (reporting (unquotingReport.bytes unquoting))
    unquotingGrammar {} hscript (by decide) (by decide +kernel) hlaid hroot hregular hembeds
    (fun _ => ⟨unquotingReport, habout, rfl⟩) (.inl (by decide +kernel)) ⟨_, rfl⟩
    (holding unquoting.text) rfl ()

/-- The script `echo hi` in one row. -/
def greeting : Grammar where
  entries :=
    [("echo hi\n", some ⟨.program, 0, 8, [⟨.command, 0, 7, [naming 0 4, ⟨.word, 5, 7, []⟩]⟩]⟩)]

/-- A script that reads a variable behind characters of two bytes. -/
def accented : Grammar where
  entries :=
    [("PATH=/bin\necho \"ąąąą\" $x\n", some ⟨.program, 0, 29,
      [⟨.variableAssignment, 0, 9,
          [⟨.variableName, 0, 4, []⟩, ⟨.other "=", 4, 5, []⟩, ⟨.word, 5, 9, []⟩]⟩,
        ⟨.command, 10, 28, [naming 10 14, ⟨.string, 15, 25, []⟩, reading 26 28]⟩]⟩)]

/-- A script with a command string of three rows. -/
def spreading : Grammar where
  entries :=
    [("PATH=/bin\nbash -c '\necho $x\n'\n", some ⟨.program, 0, 30,
      [⟨.variableAssignment, 0, 9,
          [⟨.variableName, 0, 4, []⟩, ⟨.other "=", 4, 5, []⟩, ⟨.word, 5, 9, []⟩]⟩,
        ⟨.command, 10, 29, [naming 10 14, ⟨.word, 15, 17, []⟩, ⟨.rawString, 18, 29, []⟩]⟩]⟩),
      ("\necho $x\n", some ⟨.program, 1, 9, [⟨.command, 1, 8, [naming 1 5, reading 6 8]⟩]⟩)]

/-- Audits a script that the linter has nothing to say about, and repairs it. -/
def auditAndRepair (g : Grammar) : Job (StateM Unit) Unit := do
  let found ← auditFile (reporting ByteArray.empty) g {} "a.sh"
  repairFile "a.sh" "a.sh" found

/-- A script of one row is audited but not repaired. One with other characters than ASCII
before an expansion is not even audited, and neither is one with an expansion in a later row
of a command string. -/
theorem auditFile_or_repairFile_stops :
    (((auditFile (reporting ByteArray.empty) greeting {} "a.sh").exec
        (holding "echo hi\n")).run ()).1.1.toOption.isSome = true ∧
      (((auditAndRepair greeting).exec (holding "echo hi\n")).run ()).1.1 =
        .error .lineOutOfRange ∧
      (((auditAndRepair accented).exec (holding "PATH=/bin\necho \"ąąąą\" $x\n")).run ()).1.1 =
        .error .columnOutOfRange ∧
      (((auditAndRepair spreading).exec
        (holding "PATH=/bin\nbash -c '\necho $x\n'\n")).run ()).1.1 =
          .error .columnOutOfRange := by
  decide +kernel

end Job

end ShellAudit
