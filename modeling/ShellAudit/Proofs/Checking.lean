-- SUMMARY: Checks return findings that are in the rows of the script, if the records are.
import ShellAudit.Check.Injection
import ShellAudit.Check.ScriptName
import ShellAudit.Check.SearchPath
import ShellAudit.Proofs.Placement
import ShellAudit.Proofs.Repairing

/-!
# Checks that return

A check stops with a fault if a record leads it to a line or a column that the script
does not have. If every record stands in the rows of the script, no check does, and each
finding is about a row that it fits, so that it can be repaired.

Lines are rows without their line feeds, as long as nothing but a line feed ends a line.
-/

namespace ShellAudit

/-! ## Results -/

/-- There is a result, and it is as asked for. -/
def Yields {α : Type} (x : Except Fault α) (Q : α → Prop) : Prop := ∃ a, x = .ok a ∧ Q a

namespace Yields

variable {α β : Type} {P : α → Prop} {Q : β → Prop}

theorem pure {a : α} (h : P a) : Yields (.ok a) P := ⟨a, rfl, h⟩

theorem bind {x : Except Fault α} {next : α → Except Fault β} (h : Yields x P)
    (hnext : ∀ a, P a → Yields (next a) Q) : Yields (x >>= next) Q := by
  obtain ⟨a, rfl, ha⟩ := h
  exact hnext a ha

theorem weaken {x : Except Fault α} {P' : α → Prop} (h : Yields x P) (hP : ∀ a, P a → P' a) :
    Yields x P' := by
  obtain ⟨a, rfl, ha⟩ := h
  exact ⟨a, rfl, hP a ha⟩

theorem mapM {f : α → Except Fault β} {l : List α} (h : ∀ a ∈ l, Yields (f a) Q) :
    Yields (l.mapM f) fun bs => ∀ b ∈ bs, Q b := by
  induction l with
  | nil => exact pure fun b hb => absurd hb List.not_mem_nil
  | cons a l ih =>
    rw [List.mapM_cons]
    refine (h a List.mem_cons_self).bind fun b hb =>
      (ih fun c hc => h c (List.mem_cons_of_mem a hc)).bind fun bs hbs => pure ?_
    exact List.forall_mem_cons.2 ⟨hb, hbs⟩

end Yields

/-- Whatever state the outside programs are in, there is a result, and it is as asked for. -/
def Answers {σ α : Type} (x : ExceptT Fault (StateM σ) α) (Q : α → Prop) : Prop :=
  ∀ t, ∃ a u, (ExceptT.run x).run t = (.ok a, u) ∧ Q a

namespace Answers

variable {σ α β : Type} {P : α → Prop} {Q : β → Prop}

theorem pure {a : α} (h : P a) : Answers (Pure.pure a : ExceptT Fault (StateM σ) α) P :=
  fun t => ⟨a, t, rfl, h⟩

theorem mk {x : Except Fault α} (h : Yields x P) :
    Answers (ExceptT.mk (Pure.pure x) : ExceptT Fault (StateM σ) α) P := by
  obtain ⟨a, rfl, ha⟩ := h
  exact fun t => ⟨a, t, rfl, ha⟩

theorem lift (x : StateM σ α) : Answers (ExceptT.lift x) fun _ => True :=
  fun t => ⟨(x.run t).1, (x.run t).2, rfl, trivial⟩

theorem bind {x : ExceptT Fault (StateM σ) α} {next : α → ExceptT Fault (StateM σ) β}
    (h : Answers x P) (hnext : ∀ a, P a → Answers (next a) Q) : Answers (x >>= next) Q := by
  intro t
  obtain ⟨a, u, hx, ha⟩ := h t
  obtain ⟨b, v, hb, hQ⟩ := hnext a ha u
  refine ⟨b, v, ?_, hQ⟩
  rw [ExceptT.run_bind, StateT.run_bind, hx]
  exact hb

theorem mapM {f : α → ExceptT Fault (StateM σ) β} {l : List α} (h : ∀ a ∈ l, Answers (f a) Q) :
    Answers (l.mapM f) fun bs => ∀ b ∈ bs, Q b := by
  induction l with
  | nil => exact pure fun b hb => absurd hb List.not_mem_nil
  | cons a l ih =>
    rw [List.mapM_cons]
    refine (h a List.mem_cons_self).bind fun b hb =>
      (ih fun c hc => h c (List.mem_cons_of_mem a hc)).bind fun bs hbs => pure ?_
    exact List.forall_mem_cons.2 ⟨hb, hbs⟩

end Answers

/-! ## Assigned values -/

namespace Text

theorem find?_le {needle s : List Char} {i : Nat} (h : find? needle s = some i) : i ≤ s.length := by
  induction s generalizing i with
  | nil =>
    rw [find?] at h
    split at h <;> cases h
    exact Nat.le_refl 0
  | cons c s ih =>
    rw [find?] at h
    split at h
    · cases h
      exact Nat.zero_le _
    · obtain ⟨j, hj, rfl⟩ := Option.map_eq_some_iff.1 h
      exact Nat.succ_le_succ (ih hj)

theorem findFrom?_le {needle s : List Char} {start i : Nat}
    (h : findFrom? needle start s = some i) : i ≤ s.length := by
  unfold findFrom? at h
  split at h
  · obtain ⟨j, hj, rfl⟩ := Option.map_eq_some_iff.1 h
    have := find?_le hj
    rw [List.length_drop] at this
    omega
  · cases h

end Text

namespace Quoting

theorem spanWith_yields {line : List Char} {start stop : Nat} (h : start ≤ line.length)
    (quote : Char) : Yields (spanWith line (start : Int) (stop : Int) quote) fun _ => True := by
  unfold spanWith
  rw [if_neg (by omega)]
  exact .pure trivial

theorem span_yields {line : List Char} {start : Nat} (h : start ≤ line.length) (length : Nat) :
    Yields (span line (start : Int) (length : Int)) fun _ => True := by
  unfold span
  rw [← Int.natCast_add]
  refine (spanWith_yields h '"').bind fun quoted _ => ?_
  split
  · exact .pure trivial
  · exact spanWith_yields h '\x27'

/-- Variables are looked for in the line itself, so whether they are quoted is always known. -/
theorem valueQuoted_yields (line : List Char) (assigned read : String) :
    Yields (valueQuoted line assigned read) fun _ => True := by
  simp only [valueQuoted]
  split
  · exact .pure trivial
  · split
    · exact .pure trivial
    · split
      · exact span_yields (Text.findFrom?_le ‹_›) _
      · exact span_yields (Text.findFrom?_le ‹_›) _
      · exact .pure trivial

theorem Quotes.span_eq {line : List Char} {name : String} (h : Quotes line name)
    {spelling : List Char} (hspelling : spelling ∈ spellings name) {start i : Nat}
    (hfound : Text.findFrom? spelling start line = some i) :
    span line i spelling.length = .ok true := by
  obtain ⟨-, hprefix⟩ := Text.isPrefixOf_of_findFrom? hfound
  refine h spelling hspelling i ?_ (List.isPrefixOf_iff_prefix.2 hprefix)
  have hpos : 0 < spelling.length := by
    rcases List.mem_cons.1 hspelling with rfl | hspelling
    · exact Nat.succ_pos _
    · rw [List.mem_singleton.1 hspelling]
      exact Nat.succ_pos _
  have hlength := hprefix.length_le
  rw [List.length_drop] at hlength
  omega

/-- Whatever the assignment is to, a variable that the line shows in quotes only is quoted. -/
theorem Quotes.valueQuoted_eq {line : List Char} {read : String} (h : Quotes line read)
    (assigned : String) : valueQuoted line assigned read = .ok true := by
  simp only [valueQuoted]
  split
  · rfl
  · split
    · rfl
    · split
      · exact h.span_eq List.mem_cons_self ‹_›
      · exact h.span_eq (List.mem_cons_of_mem _ List.mem_cons_self) ‹_›
      · rfl

end Quoting

namespace Check

/-- The findings are about rows that they fit. -/
def InRows (rows : List (List Char)) (fs : List Finding) : Prop :=
  ∀ f ∈ fs, Repair.InRow (rows.map String.ofList) f

theorem InRows.nil {rows : List (List Char)} : InRows rows [] :=
  fun _ hf => absurd hf List.not_mem_nil

theorem InRows.append {rows : List (List Char)} {fs fs' : List Finding} (h : InRows rows fs)
    (h' : InRows rows fs') : InRows rows (fs ++ fs') := List.forall_mem_append.2 ⟨h, h'⟩

theorem InRows.flatten {rows : List (List Char)} {fss : List (List Finding)}
    (h : ∀ fs ∈ fss, InRows rows fs) : InRows rows fss.flatten := by
  intro f hf
  obtain ⟨fs, hfs, hf⟩ := List.mem_flatten.1 hf
  exact h fs hfs f hf

variable {rows : List (List Char)}

/-- A finding at a column of a row is placed there. If there is a remedy for it, it has
to be at a dollar sign or behind one. -/
theorem place_inRow {shown : List String} {f : Finding} {i : Nat} {row : List Char} {column : Int}
    (hline : f.line = i) (hcolumn : f.column = some column) (hrow : rows[i]? = some row)
    (hfits : ∀ remedy, Repair.Remedy.ofDescription? f.description = some remedy →
      ∃ j : Nat, column = j ∧ j < row.length ∧ '$' ∈ row.take (j + 1)) :
    Yields (Finding.place shown f) (Repair.InRow (rows.map String.ofList)) := by
  have hplaced : ¬f.line = -1 := by omega
  refine ⟨{ f with
    line := f.line + 1
    column := some (column + 1)
    content := f.content.or
      (if 0 ≤ f.line then shown[f.line.toNat]?.map Finding.rowContent else none) }, ?_, ?_⟩
  · simp only [Finding.place, if_neg hplaced, hcolumn]
  · refine ⟨i, String.ofList row, by rw [hline], rfl, by rw [List.getElem?_map, hrow]; rfl, ?_⟩
    intro remedy hremedy
    obtain ⟨j, rfl, hlt, hdollar⟩ := hfits remedy hremedy
    rw [String.toList_ofList]
    exact ⟨j, rfl, hlt, fun _ => hdollar⟩

/-- A finding that nothing can be done about only has to be in a row. -/
theorem place_hasRow {shown : List String} {f : Finding} {line column : Int} (hline : f.line = line)
    (hcolumn : f.column = some column) (hrow : Text.HasRow rows line)
    (hremedy : Repair.Remedy.ofDescription? f.description = none) :
    Yields (Finding.place shown f) (Repair.InRow (rows.map String.ofList)) := by
  obtain ⟨i, rfl, hlt⟩ := hrow
  refine place_inRow hline hcolumn (List.getElem?_eq_getElem hlt) fun remedy h => ?_
  rw [hremedy] at h
  cases h

theorem unquoted_yields {script : Script} {line column : Nat}
    (h : Text.Reaches rows '$' line column) (content : List Char) :
    Yields (unquoted script line column content) (Repair.InRow (rows.map String.ofList)) := by
  obtain ⟨row, hrow, hinside, hdollar⟩ := h
  have hlt := Nat.lt_of_lt_of_le hinside (List.takeWhile_sublist _).length_le
  exact place_inRow rfl rfl hrow fun _ _ => ⟨column, rfl, hlt, hdollar⟩

theorem injected_yields {script : Script} {line column : Int} {content : Option String}
    {recommendation : String} (h : Text.HasRow rows line) :
    Yields (injected script line column content recommendation)
      (Repair.InRow (rows.map String.ofList)) := by
  have hremedy : Repair.Remedy.ofDescription? Wording.commandInjection = none := by decide +kernel
  exact place_hasRow rfl rfl h hremedy

/-- One finding in a row makes a list of findings in rows. -/
theorem one {finding : Except Fault Finding}
    (h : Yields finding (Repair.InRow (rows.map String.ofList))) :
    Yields (do return [← finding]) (InRows rows) :=
  h.bind fun _ hf => .pure (List.forall_mem_singleton.2 hf)

/-! ## Lines -/

section

variable {script : Script} (hfeeds : Text.OnlyFeeds script.text.toList)

include hfeeds

theorem lines_eq :
    script.lines =
      (Text.rows script.text.toList).map fun row => String.ofList (Text.chomp row) := by
  rw [Script.lines, Text.linesOf, Text.lines_eq_map_chomp hfeeds, List.map_map]
  rfl

theorem lineAt_eq {i : Nat} {row : List Char}
    (hrow : (Text.rows script.text.toList)[i]? = some row) :
    lineAt script.lines (i : Int) = .ok (Text.chomp row) := by
  rw [lineAt, Text.at?_ofNat, lines_eq hfeeds, List.getElem?_map, hrow]
  simp

theorem lineAt_yields {line : Int} (h : Text.HasRow (Text.rows script.text.toList) line) :
    Yields (lineAt script.lines line) fun _ => True := by
  obtain ⟨i, rfl, hlt⟩ := h
  exact ⟨_, lineAt_eq hfeeds (List.getElem?_eq_getElem hlt), trivial⟩

theorem lineOrEmpty_yields {line : Int} (h : Text.HasRow (Text.rows script.text.toList) line) :
    Yields (lineOrEmpty script.lines line) fun _ => True := by
  unfold lineOrEmpty
  split
  · exact lineAt_yields hfeeds h
  · exact .pure trivial

end

/-! ## Single checks -/

section

variable {script : Script} {survey : Survey}
  (hsurvey : survey.StandsIn (Text.rows script.text.toList))

/-- At most one finding is not about a row: that the search path is not set. -/
theorem searchPath_yields (script : Script) (survey : Survey) :
    Yields (searchPath script survey) fun fs => fs.length ≤ 1 ∧ ∀ f ∈ fs, f.line = -1 ∧
      Repair.Remedy.ofDescription? f.description = none ∧ setsPath survey = false := by
  unfold searchPath
  split
  · exact .pure ⟨Nat.zero_le 1, fun f hf => absurd hf List.not_mem_nil⟩
  · rename_i hpath
    have hremedy : Repair.Remedy.ofDescription? Wording.missingPath = none := by decide +kernel
    exact ⟨_, rfl, Nat.le_refl 1, List.forall_mem_singleton.2
      ⟨rfl, hremedy, Bool.not_eq_true _ ▸ hpath⟩⟩

include hsurvey

theorem scriptName_yields :
    Yields (scriptName script survey) (InRows (Text.rows script.text.toList)) := by
  have hremedy : Repair.Remedy.ofDescription? Wording.zerothParameter = none := by decide +kernel
  exact .mapM fun c hc => place_hasRow rfl rfl (hsurvey.commands c (List.mem_filter.1 hc).1) hremedy

variable (hfeeds : Text.OnlyFeeds script.text.toList)

include hfeeds

theorem unquotedUse_yields {use : Use} (huse : use ∈ survey.used) :
    Yields (unquotedUse script use) (InRows (Text.rows script.text.toList)) := by
  obtain ⟨i, j, hi, hj, row, hrow, hinside, hdollar⟩ := hsurvey.used use huse
  have hline := lineAt_eq hfeeds hrow
  have hcolumn := Nat.le_of_lt hinside
  have hstarts : Yields (startsLine script.lines use) fun _ => True := by
    unfold startsLine
    split
    · exact .pure trivial
    · rw [hi, hline]
      exact .pure trivial
  have hquoted : Yields (isQuoted script.lines use) fun _ => True := by
    obtain ⟨double, hdouble⟩ :=
      @Quoting.check_returns (Text.chomp row) '"' j (j + use.name.length) hcolumn
    obtain ⟨single, hsingle⟩ :=
      @Quoting.check_returns (Text.chomp row) '\x27' j (j + use.name.length) hcolumn
    have hstop : use.column + use.name.length = ((j + use.name.length : Nat) : Int) := by omega
    unfold isQuoted
    rw [hi, hline, hstop, hj]
    simp only [bind, Except.bind, hdouble, hsingle]
    split <;> exact .pure trivial
  unfold unquotedUse
  split
  · exact .pure .nil
  · refine hstarts.bind fun starts _ => ?_
    split
    · exact .pure .nil
    · refine hquoted.bind fun quoted _ => ?_
      split
      · exact .pure .nil
      · rw [hi, hj, hline]
        exact one (unquoted_yields ⟨row, hrow, hinside, hdollar⟩ (Text.chomp row))

theorem unquotedValue_yields {a : Assignment} (ha : a ∈ survey.assigned) :
    Yields (unquotedValue script a) (InRows (Text.rows script.text.toList)) := by
  obtain ⟨i, hi, hlt, hparts⟩ := hsurvey.assigned a ha
  have part {p : Part} (hp : p.StandsIn (Text.rows script.text.toList) i) :
      Yields (unquotedPart script a p) (InRows (Text.rows script.text.toList)) := by
    unfold unquotedPart
    split
    · exact .pure .nil
    · rename_i name hname
      obtain ⟨frame, column, hframe, hstart, hlocates⟩ := hp name hname
      split
      · exact .pure .nil
      · rw [hi]
        rcases hlocates with hreaches | ⟨row, hrow, hquotes⟩
        · refine (lineAt_yields hfeeds ⟨i, rfl, hlt⟩).bind fun line _ =>
            (Quoting.valueQuoted_yields line a.name name).bind fun quoted _ => ?_
          split
          · exact .pure .nil
          · simp only [hframe, hstart]
            exact one (unquoted_yields hreaches line)
        · simp only [lineAt_eq hfeeds hrow, bind, Except.bind, hquotes.valueQuoted_eq, if_true]
          exact .pure .nil
  refine (Yields.mapM fun p hp => part ?_).bind fun fss hfss => .pure (.flatten hfss)
  cases hvalue : a.value with
  | none =>
    rw [hvalue] at hp
    cases hp
  | some value =>
    rw [hvalue] at hp
    exact hparts value hvalue p hp

theorem expansion_yields :
    Yields (expansion script survey) (InRows (Text.rows script.text.toList)) :=
  (Yields.mapM fun _ huse => unquotedUse_yields hsurvey hfeeds huse).bind fun _ huses =>
    (Yields.mapM fun _ ha => unquotedValue_yields hsurvey hfeeds ha).bind fun _ hvalues =>
      .pure (.append (.flatten huses) (.flatten hvalues))

theorem runByCommand_yields (tainted : NameSet) {c : Command} (hc : c ∈ survey.commands) :
    Yields (runByCommand script survey.assigned tainted c)
      (InRows (Text.rows script.text.toList)) := by
  have hrow := hsurvey.commands c hc
  have runs : Yields (runsInput script survey.assigned tainted c)
      (InRows (Text.rows script.text.toList)) := by
    unfold runsInput
    simp only
    split
    · refine (lineOrEmpty_yields hfeeds hrow).bind fun line _ => ?_
      split
      · exact .pure .nil
      · exact one (injected_yields hrow)
    · exact .pure .nil
  have evaluates : Yields (evaluatesInput script survey.assigned tainted c)
      (InRows (Text.rows script.text.toList)) := by
    have hremedy : Repair.Remedy.ofDescription? Wording.evalSource = none := by decide +kernel
    unfold evaluatesInput
    split
    · exact .pure .nil
    · split
      · exact (lineAt_yields hfeeds hrow).bind fun line _ => one (place_hasRow rfl rfl hrow hremedy)
      · exact .pure .nil
  exact runs.bind fun _ hruns => evaluates.bind fun _ hevaluates => .pure (.append hruns hevaluates)

theorem indexedByInput_yields (tainted : NameSet) {s : Subscript} (hs : s ∈ survey.subscripts) :
    Yields (indexedByInput script tainted s) (InRows (Text.rows script.text.toList)) := by
  have hrow := hsurvey.subscripts s hs
  have hremedy : Repair.Remedy.ofDescription? Wording.arrayIndex = none := by decide +kernel
  unfold indexedByInput
  split
  · exact (lineOrEmpty_yields hfeeds hrow).bind fun line _ =>
      one (place_hasRow rfl rfl hrow hremedy)
  · exact .pure .nil

omit hfeeds in
theorem declaresInput_yields (tainted : NameSet) {p : Pair} (hp : p ∈ survey.pairs) :
    Yields (declaresInput script tainted p) (InRows (Text.rows script.text.toList)) := by
  unfold declaresInput
  split
  · exact one (injected_yields (hsurvey.pairs p hp))
  · exact .pure .nil

/-! ## Probing -/

theorem evaluatedByTest_answers {σ : Type} (shell : String → StateM σ Transcript)
    (tainted : NameSet) {i : Injectable} (hi : i ∈ survey.injectable) :
    Answers (evaluatedByTest shell script tainted i) (InRows (Text.rows script.text.toList)) := by
  have hrow := hsurvey.injectable i hi
  unfold evaluatedByTest
  split
  · refine (Answers.mk (lineAt_yields hfeeds hrow)).bind fun line _ =>
      (Answers.lift _).bind fun attacked _ => ?_
    split
    · exact (Answers.mk (injected_yields hrow)).bind fun f hf =>
        .pure (List.forall_mem_singleton.2 hf)
    · exact .pure .nil
  · exact .pure .nil

/-- Whatever the shell prints, the check for command injection returns. -/
theorem injection_answers {σ : Type} (shell : String → StateM σ Transcript) (tainted : NameSet) :
    Answers (injection shell script survey tainted) (InRows (Text.rows script.text.toList)) := by
  have tests : Answers (evaluatedByTests shell script tainted survey.injectable)
      (InRows (Text.rows script.text.toList)) :=
    (Answers.mapM fun _ hi => evaluatedByTest_answers hsurvey hfeeds shell tainted hi).bind
      fun _ hfss => .pure (.flatten hfss)
  refine (Answers.mk (.mapM fun _ hc => runByCommand_yields hsurvey hfeeds tainted hc)).bind
    fun _ hcommands =>
      (Answers.mk (.mapM fun _ hs => indexedByInput_yields hsurvey hfeeds tainted hs)).bind
        fun _ hindices => tests.bind fun _ htests =>
          (Answers.mk (.mapM fun _ hp => declaresInput_yields hsurvey tainted hp)).bind
            fun _ hpairs => .pure ?_
  exact (((InRows.flatten hcommands).append (.flatten hindices)).append htests).append
    (.flatten hpairs)

end

end Check

end ShellAudit
