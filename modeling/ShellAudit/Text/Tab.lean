-- SUMMARY: Tab characters written out as spaces up to the next stop.

/-!
# Tab stops

A tab moves to the next column that is a multiple of eight. Columns count
characters and start again after a line feed or a carriage return.
-/

namespace ShellAudit.Text

/-- The distance between two tab stops. -/
def tabWidth : Nat := 8

/-- Writes the tabs out, `column` being the column of the first character. -/
def expandTabsFrom (column : Nat) : List Char → List Char
  | [] => []
  | c :: cs =>
    if c = '\t' then
      let gap := tabWidth - column % tabWidth
      List.replicate gap ' ' ++ expandTabsFrom (column + gap) cs
    else if c = '\n' ∨ c = '\r' then c :: expandTabsFrom 0 cs
    else c :: expandTabsFrom (column + 1) cs

/-- The text with every tab written out as spaces. -/
def expandTabs (s : List Char) : List Char := expandTabsFrom 0 s

@[simp] theorem expandTabsFrom_nil (column : Nat) : expandTabsFrom column [] = [] := rfl

/-- No tab is left. -/
theorem not_mem_expandTabsFrom (column : Nat) (s : List Char) : '\t' ∉ expandTabsFrom column s := by
  induction s generalizing column with
  | nil => simp
  | cons c cs ih =>
    simp only [expandTabsFrom]
    split
    · simp [ih]
    · rename_i hc
      split <;> simp [ih, Ne.symm hc]

/-- A text without tabs stays as it is. -/
theorem expandTabsFrom_of_not_mem {s : List Char} (h : '\t' ∉ s) (column : Nat) :
    expandTabsFrom column s = s := by
  induction s generalizing column with
  | nil => rfl
  | cons c cs ih =>
    rw [List.mem_cons, not_or] at h
    have hc : c ≠ '\t' := Ne.symm h.1
    simp [expandTabsFrom, hc, ih h.2]

end ShellAudit.Text
