-- SUMMARY: While a row is repaired, later columns are shifted by exactly what the row has grown by.
import ShellAudit.Proofs.QuotedRuns

/-!
# Shifted columns

The findings of a row have the columns of the row as it was. Each remedy says how many characters
it has added, and the columns of the findings after it are shifted by the sum. Whatever remedies
there are and in whatever order they come, the sum is what the row has grown by: a quoted run and a
quoted substitution grow by two, one in backticks by three, and one that is found to be quoted, or
not to be closed, by nothing. Through all this the end of the row stays what it is.
-/

namespace ShellAudit

namespace Text

theorem AreRows.ended_or_open {rows : List (List Char)} (h : AreRows rows) {row : List Char}
    (hrow : row ∈ rows) : Ended row ∨ Open row := by
  induction h with
  | nil => cases hrow
  | last hopen => exact .inr (List.mem_singleton.1 hrow ▸ hopen)
  | cons hended _ ih =>
    rcases List.mem_cons.1 hrow with rfl | hrow
    · exact .inl hended
    · exact ih hrow

/-- The ends that a row can have. -/
def endings : List (List Char) := [[], ['\n']]

end Text

namespace Repair

open Text

theorem Held.areRows {rows : List String} (h : Held rows) :
    AreRows (rows.map String.toList) := by
  induction h with
  | read text => exact areRows_rowsOf text
  | repaired fs hheld ih => exact (all_kept hheld.tabs fs).areRows ih

/-- Rows that end alike have the same ending, and no line feed before it. -/
theorem SameEnd.exists_ending {row out : List Char} (h : SameEnd row out)
    (hrow : Ended row ∨ Open row) :
    ∃ body body' ending, row = body ++ ending ∧ out = body' ++ ending ∧ ending ∈ endings ∧
      '\n' ∉ body ∧ '\n' ∉ body' := by
  rcases hrow with hended | hopen
  · obtain ⟨body', hout, hbody'⟩ := h.ended hended
    obtain ⟨body, hrow, hbody⟩ := hended
    exact ⟨body, body', ['\n'], hrow, hout, by decide, hbody, hbody'⟩
  · exact ⟨row, out, [], (List.append_nil row).symm, (List.append_nil out).symm, by decide,
      hopen.2, (h.opened hopen).2⟩

/-! ## Steps -/

/-- The finding has a column, counted from one. -/
def HasColumn (f : Finding) : Prop := ∃ column : Int, f.column = some column ∧ 1 ≤ column

/-- One step: what is added to the sum is what is added to the line. -/
theorem step_grown {line out : List Char} {added added' : Nat} {f : Finding} (htab : '\t' ∉ line)
    (hf : HasColumn f) (h : step (line, added) f = .ok (out, added')) :
    ∃ more, added' = added + more ∧ Grown line out more := by
  rcases step_cases h with ⟨rfl, rfl⟩ | ⟨remedy, column, more, hcolumn, happly, rfl⟩
  · exact ⟨0, rfl, .refl _⟩
  · obtain ⟨column', hcolumn', hpos⟩ := hf
    cases Option.some.inj (hcolumn.symm.trans hcolumn')
    obtain ⟨k, hk⟩ : ∃ k : Nat, (added : Int) + column - 1 = k :=
      ⟨((added : Int) + column - 1).toNat, by omega⟩
    rw [hk] at happly
    exact ⟨more, rfl, Remedy.apply_grown htab happly⟩

/-- Any number of steps: the line has grown by the sum. -/
theorem foldlM_step_grown {row out : List Char} {added : Nat} {fs : List Finding}
    (htab : '\t' ∉ row) (hfs : ∀ f ∈ fs, HasColumn f)
    (h : fs.foldlM step (row, 0) = .ok (out, added)) : Grown row out added := by
  refine foldlM_step_induction (P := fun state => Grown row state.1 state.2) ?_ (.refl row) h
  rintro f hf ⟨line, sum⟩ ⟨line', sum'⟩ hline hone
  obtain ⟨more, rfl, hmore⟩ := step_grown (hline.tab htab) (hfs f hf) hone
  exact hline.trans hmore

/-- Steps that return have returned after each of them. -/
theorem foldlM_step_prefix {state state' : List Char × Nat} {fs done : List Finding}
    (h : fs.foldlM step state = .ok state') (hdone : done <+: fs) :
    ∃ between, done.foldlM step state = .ok between := by
  obtain ⟨rest, rfl⟩ := hdone
  rw [List.foldlM_append] at h
  cases hbetween : done.foldlM step state with
  | error fault =>
    rw [hbetween] at h
    cases h
  | ok between => exact ⟨between, rfl⟩

/-- A repair of a row that returns has put its findings in order and taken one step for each. -/
theorem exec_repairRow_ok {index : Int} {fs : List Finding} {rows rows' : List String}
    {row : String} (hrow : at? rows index = some row)
    (h : (repairRow index fs).exec rows = (.ok (), rows')) :
    ∃ sorted out added, inOrder fs = .ok sorted ∧
      sorted.foldlM step (row.toList, 0) = .ok (out, added) ∧
      rows' = replaceAt rows index (String.ofList out) := by
  rcases exec_repairRow_cases index fs rows with
    ⟨fault, hstop⟩ | ⟨sorted, row', out, hsorted, hrow', hout, hexec⟩
  · cases hstop.symm.trans h
  · cases Option.some.inj (hrow.symm.trans hrow')
    rw [repairLine_eq_foldlM] at hout
    cases hsteps : sorted.foldlM step (row.toList, 0) with
    | error fault =>
      rw [hsteps] at hout
      cases hout
    | ok state =>
      rw [hsteps] at hout
      cases hout
      exact ⟨sorted, state.1, state.2, hsorted, hsteps, (Prod.mk.inj (h.symm.trans hexec)).2⟩

/-- Findings about a row, with any columns and descriptions, whose repair returns. After each step
the number of characters by which later columns are shifted is what the row has grown by. In the
end the row has the ending that it had, and no other line feed. -/
theorem repairRow_shifts {rows rows' : List String} (hheld : Held rows) {index : Int} {row : String}
    (hrow : at? rows index = some row) {fs : List Finding} (hfs : ∀ f ∈ fs, HasColumn f)
    (hrun : (repairRow index fs).exec rows = (.ok (), rows')) :
    ∃ sorted out, inOrder fs = .ok sorted ∧
      rows' = replaceAt rows index (String.ofList out) ∧
      (∀ done, done <+: sorted → ∃ current added,
        done.foldlM step (row.toList, 0) = .ok (current, added) ∧
          current.length = row.toList.length + added ∧ (done = sorted → current = out)) ∧
      ∃ body body' ending, row.toList = body ++ ending ∧ out = body' ++ ending ∧
        ending ∈ endings ∧ '\n' ∉ body ∧ '\n' ∉ body' := by
  obtain ⟨sorted, out, added, hsorted, hsteps, hrows'⟩ := exec_repairRow_ok hrow hrun
  obtain ⟨k, hk, -, -⟩ := exists_of_at? hrow
  have hmem : row ∈ rows := List.mem_of_getElem? hk
  have htab := hheld.tabs row hmem
  have hcolumns (f : Finding) (hf : f ∈ sorted) : HasColumn f := hfs f (mem_of_inOrder hsorted hf)
  refine ⟨sorted, out, hsorted, hrows', fun done hdone => ?_,
    (foldlM_step_sameEnd htab hsteps).exists_ending
      (hheld.areRows.ended_or_open (List.mem_map_of_mem hmem))⟩
  obtain ⟨⟨current, sum⟩, hcurrent⟩ := foldlM_step_prefix hsteps hdone
  refine ⟨current, sum, hcurrent, ?_, ?_⟩
  · exact (foldlM_step_grown htab (fun f hf => hcolumns f (hdone.subset hf)) hcurrent).length
  · rintro rfl
    exact congrArg Prod.fst (Except.ok.inj (hcurrent.symm.trans hsteps))

/-- A finding in the first row with some description, at a column. -/
def describedAt (description : String) (column : Int) : Finding :=
  { category := .other, severity := .low, description := description, line := 1,
    column := some column }

/-- A variable, substitutions of both kinds, a variable in quotes and a finding without a remedy. -/
def mixedFindings : List Finding :=
  [describedAt Wording.unquotedSubstitution 18, describedAt Wording.unquotedVariable 14,
    describedAt Wording.unquotedSubstitution 9, describedAt Wording.unquotedVariable 6,
    describedAt Wording.globExpansion 1]

theorem repairRow_shifts_mixed :
    let rows := rowsOf "echo $a \x60b\x60 \"$c\" $(d)\n"
    let repaired := "echo \"$a\" \"$(b)\" \"$c\" \"$(d)\"\n"
    (repairRow 0 mixedFindings).exec rows = (.ok (), [repaired]) ∧
      ∃ sorted, inOrder mixedFindings = .ok sorted ∧ ∀ done, done <+: sorted →
        ∃ current added, done.foldlM step ("echo $a \x60b\x60 \"$c\" $(d)\n".toList, 0) =
            .ok (current, added) ∧
          current.length = 22 + added ∧ (done = sorted → current = repaired.toList) := by
  intro rows repaired
  have hrow : at? rows 0 = some "echo $a \x60b\x60 \"$c\" $(d)\n" := by decide +kernel
  have hsorted : inOrder mixedFindings = .ok mixedFindings.reverse := by
    simp [mixedFindings, inOrder, List.mergeSort, List.MergeSort.Internal.splitInTwo, describedAt]
  have hrepaired : repairLine "echo $a \x60b\x60 \"$c\" $(d)\n".toList 0 mixedFindings.reverse =
      .ok repaired.toList := by decide +kernel
  have hrun : (repairRow 0 mixedFindings).exec rows = (.ok (), [repaired]) := by
    rw [exec_repairRow hsorted hrow hrepaired]
    decide +kernel
  have hcolumns : ∀ f ∈ mixedFindings, HasColumn f := by
    simp [mixedFindings, HasColumn, describedAt]
  obtain ⟨sorted, out, hsorted', hrows', hsteps, -⟩ :=
    repairRow_shifts (.read _) hrow hcolumns hrun
  have hout : out = repaired.toList := by
    have hfirst : some repaired = some (String.ofList out) := congrArg (·[0]?) hrows'
    rw [Option.some.inj hfirst, String.toList_ofList]
  refine ⟨hrun, sorted, hsorted', fun done hdone => ?_⟩
  obtain ⟨current, added, hcurrent, hlength, hlast⟩ := hsteps done hdone
  exact ⟨current, added, hcurrent, hlength, fun hall => (hlast hall).trans hout⟩

end Repair

end ShellAudit
