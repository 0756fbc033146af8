-- SUMMARY: The audit, the repair and the findings read the same rows, blanks at their ends aside.
import ShellAudit.Proofs.Rows
import ShellAudit.Repair
import ShellAudit.Script

/-!
# Readers of a script

A script is read three times. The audit writes out the tabs of the whole text, the repair
writes them out row by row, and a finding trims the end of its row before it writes out the
tabs. Tab stops are counted anew in each row, and what a tab at the end of a row becomes is
blank, so all three see the same rows.
-/

namespace ShellAudit

namespace Text

/-! ## Trimming and writing out tabs -/

theorem trimEnd_append (p : Char → Bool) (s t : List Char) :
    trimEnd p (s ++ t) = if trimEnd p t = [] then trimEnd p s else s ++ trimEnd p t := by
  unfold trimEnd
  rw [List.reverse_append, List.dropWhile_append]
  cases t.reverse.dropWhile p <;> simp

theorem trimEnd_cons (p : Char → Bool) (c : Char) (s : List Char) :
    trimEnd p (c :: s) = if trimEnd p s = [] then trimEnd p [c] else c :: trimEnd p s :=
  trimEnd_append p [c] s

theorem trimEnd_replicate {p : Char → Bool} {c : Char} (h : p c = true) (n : Nat) :
    trimEnd p (List.replicate n c) = [] := by
  simp [trimEnd, h]

/-- A character that is no tab is kept, and decides the column of what follows it. -/
theorem expandTabsFrom_cons {c : Char} (h : c ≠ '\t') (column : Nat) :
    ∃ next, ∀ s, expandTabsFrom column (c :: s) = c :: expandTabsFrom next s := by
  by_cases hend : c = '\n' ∨ c = '\r'
  · exact ⟨0, fun s => by rw [expandTabsFrom, if_neg h, if_pos hend]⟩
  · exact ⟨column + 1, fun s => by rw [expandTabsFrom, if_neg h, if_neg hend]⟩

theorem expandTabsFrom_tab (column : Nat) :
    ∃ gap, 0 < gap ∧ ∀ s, expandTabsFrom column ('\t' :: s) =
      List.replicate gap ' ' ++ expandTabsFrom (column + gap) s := by
  refine ⟨tabWidth - column % tabWidth, ?_, fun s => by rw [expandTabsFrom, if_pos rfl]⟩
  exact Nat.sub_pos_of_lt (Nat.mod_lt column (by decide))

theorem expandTabsFrom_eq_nil_iff {column : Nat} {s : List Char} :
    expandTabsFrom column s = [] ↔ s = [] := by
  cases s with
  | nil => simp
  | cons c s =>
    by_cases htab : c = '\t'
    · subst htab
      obtain ⟨gap, hgap, hexpand⟩ := expandTabsFrom_tab column
      simp [hexpand, Nat.ne_of_gt hgap]
    · obtain ⟨next, hexpand⟩ := expandTabsFrom_cons htab column
      simp [hexpand]

/-- Blanks at the end of a text may be taken off before or after its tabs are written out:
a tab becomes blanks, and all else is kept. -/
theorem trimEnd_expandTabsFrom (column : Nat) (s : List Char) :
    trimEnd isBlank (expandTabsFrom column s) = expandTabsFrom column (trimEnd isBlank s) := by
  induction s generalizing column with
  | nil => rfl
  | cons c s ih =>
    by_cases htab : c = '\t'
    · subst htab
      obtain ⟨gap, -, hexpand⟩ := expandTabsFrom_tab column
      have hblank : trimEnd isBlank ['\t'] = [] := rfl
      rw [hexpand, trimEnd_append, ih, trimEnd_replicate (by decide), trimEnd_cons, hblank]
      simp only [expandTabsFrom_eq_nil_iff]
      split
      · rfl
      · rw [hexpand]
    · obtain ⟨next, hexpand⟩ := expandTabsFrom_cons htab column
      have hone : expandTabsFrom column (trimEnd isBlank [c]) = trimEnd isBlank [c] := by
        cases hc : isBlank c
        · simp [trimEnd, hc, hexpand]
        · simp [trimEnd, hc]
      rw [hexpand, trimEnd_cons, trimEnd_cons isBlank c s, ih]
      simp only [expandTabsFrom_eq_nil_iff]
      split
      · exact hone.symm
      · rw [hexpand]

theorem trimEnd_expandTabs (s : List Char) :
    trimEnd isBlank (expandTabs s) = expandTabs (trimEnd isBlank s) :=
  trimEnd_expandTabsFrom 0 s

end Text

namespace Repair

theorem getElem?_rowsOf (text : String) (r : Nat) :
    (rowsOf text)[r]? =
      (Text.rows text.toList)[r]?.map fun row => String.ofList (Text.expandTabs row) := by
  rw [rowsOf, List.getElem?_map]

/-- The rows that are repaired make up the text with its tabs written out. -/
theorem join_rowsOf (text : String) :
    String.join (rowsOf text) = String.ofList (Text.expandTabs text.toList) := by
  have hrows : (rowsOf text).flatMap String.toList =
      ((Text.rows text.toList).map Text.expandTabs).flatten := by
    simp [rowsOf, List.flatMap_def, Function.comp_def]
  rw [← String.toList_inj, String.toList_join, hrows, ← Text.rows_expandTabs, Text.flatten_rows,
    String.toList_ofList]

end Repair

namespace Finding

/-- What a finding shows of a row is what is repaired there, without the blanks at its end. -/
theorem rowContent_eq (row : String) :
    rowContent row =
      String.ofList (Text.trimEnd Text.isBlank (Text.expandTabs row.toList)) := by
  rw [rowContent, Text.trimEnd_expandTabs]

/-- A finding without content that has a column is given the content of its row. -/
theorem place_content {rows : List String} {f : Finding} {r : Nat} {row : String}
    (hcontent : f.content = none) (hline : f.line = r) (hcolumn : f.column.isSome = true)
    (hrow : rows[r]? = some row) :
    ∃ placed, f.place rows = .ok placed ∧ placed.content = some (rowContent row) := by
  obtain ⟨column, hcolumn⟩ := Option.isSome_iff_exists.1 hcolumn
  have hnonneg : (0 : Int) ≤ r := Int.natCast_nonneg r
  have hwhole : (r : Int) ≠ -1 := by omega
  unfold place
  simp only [hcontent, hline, hcolumn, hwhole, hnonneg, if_true, if_false, Int.toNat_natCast, hrow]
  exact ⟨_, rfl, rfl⟩

end Finding

theorem FileStore.rows_of_readText {store : FileStore} {path text : String}
    (h : store.readText path = .ok text) : store.rows (some path) = Text.rowsOf text := by
  simp only [FileStore.rows, Option.map_some, h]

/-- What is audited, what is repaired and what findings show of a file agree. The rows that
are repaired make up the text that is audited. There are as many of them as the file has, and a
finding about one of them that has no content yet is given the row that is repaired, without
the blanks at its end. -/
theorem readers_agree {store : FileStore} {path text : String}
    (hread : store.readText path = .ok text) :
    ∃ script, Script.ofFile store path = .ok script ∧
      script.rows = store.rows (some path) ∧
      String.join (Repair.rowsOf text) = script.text ∧
      (Repair.rowsOf text).length = script.rows.length ∧
      ∀ (r : Nat) (row : String), (Repair.rowsOf text)[r]? = some row →
        ∀ f : Finding, f.content = none → f.line = r → f.column.isSome = true →
          ∃ placed, f.place script.rows = .ok placed ∧
            placed.content = some (String.ofList (Text.trimEnd Text.isBlank row.toList)) := by
  refine ⟨⟨some path, String.ofList (Text.expandTabs text.toList), Text.rowsOf text⟩, ?_,
    (FileStore.rows_of_readText hread).symm, Repair.join_rowsOf text, ?_, ?_⟩
  · rw [Script.ofFile, hread]
  · simp [Repair.rowsOf, Text.rowsOf]
  · intro r row hrow f hcontent hline hcolumn
    rw [Repair.getElem?_rowsOf] at hrow
    obtain ⟨chars, hchars, rfl⟩ := Option.map_eq_some_iff.1 hrow
    have hfile : (Text.rowsOf text)[r]? = some (String.ofList chars) := by
      rw [Text.rowsOf, List.getElem?_map, hchars, Option.map_some]
    obtain ⟨placed, hplaced, hshown⟩ := Finding.place_content hcontent hline hcolumn hfile
    refine ⟨placed, hplaced, ?_⟩
    rw [hshown, Finding.rowContent_eq, String.toList_ofList, String.toList_ofList]

/-- A file with tabs and other blanks before, between and behind words, whose first line ends
in a carriage return and a line feed, and whose last line does not end. -/
def tabbed : FileStore :=
  .ofFiles ["home"] [("a.sh", "\tx\t y\t\x0b \r\nab\tc\u3000\t\n\n\t \tz\t".toUTF8)]

/-- The second row is repaired with its tabs written out and shown without its last two blanks. -/
theorem readers_agree_tabbed :
    let text := "\tx\t y\t\x0b \nab\tc\u3000\t\n\n\t \tz\t"
    let f : Finding :=
      { category := .environment, severity := .low, description := "", line := 1, column := some 0 }
    tabbed.readText "a.sh" = .ok text ∧
      (Repair.rowsOf text)[1]? = some "ab      c\u3000      \n" ∧
      ∃ script placed, Script.ofFile tabbed "a.sh" = .ok script ∧
        String.join (Repair.rowsOf text) = script.text ∧
        f.place script.rows = .ok placed ∧ placed.content = some "ab      c" := by
  intro text f
  have hread : tabbed.readText "a.sh" = .ok text := by decide +kernel
  have hrow : (Repair.rowsOf text)[1]? = some "ab      c\u3000      \n" := by decide +kernel
  obtain ⟨script, hscript, -, hjoin, -, hshown⟩ := readers_agree hread
  obtain ⟨placed, hplaced, hcontent⟩ := hshown 1 _ hrow f rfl rfl rfl
  exact ⟨hread, hrow, script, placed, hscript, hjoin, hplaced, hcontent.trans (by decide +kernel)⟩

end ShellAudit
