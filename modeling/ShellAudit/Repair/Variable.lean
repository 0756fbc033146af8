-- SUMMARY: The repair of an expansion that is not quoted.
import ShellAudit.Quoting
import ShellAudit.Text.Blank
import ShellAudit.Text.Tab

/-!
# Quoting a variable

The dollar sign at the column of a finding, or the nearest one before it, and
the run of name characters behind it are put between double quotes. The tabs
that the line was written with take the place of blanks in the repaired line.
-/

namespace ShellAudit.Repair

/-- Characters that belong to the run behind a dollar sign. -/
def inRun (c : Char) : Bool :=
  c = '$' || c.isAlphanum || c = '_' || c = '*' || c = '#' || c = '@'

/-- The position of the dollar sign that a column means. -/
def dollarAt (line : List Char) (column : Int) : Except Fault Int :=
  match Text.at? line column with
  | none => .error .columnOutOfRange
  | some c =>
    if c = '$' then .ok column
    else if column ≤ 0 then .error .missingDollar
    else
      match Text.findLast? ['$'] (line.take column.toNat) with
      | some i => .ok i
      | none => .error .missingDollar

/-- The line with the run at a position between double quotes. -/
def quoteRun (line : List Char) (position : Int) : List Char :=
  let rest := Text.after line position
  let run := rest.takeWhile inRun
  Text.before line position ++ '"' :: run ++ '"' :: rest.drop run.length

/-- Puts a tab in the place of the blanks of one tab stop at `position`, as
often as `count` says. -/
def restoreTabs (position : Nat) : Nat → List Char → Except Fault (List Char)
  | 0, line => .ok line
  | count + 1, line =>
    if ((line.drop position).take Text.tabWidth).all Text.isBlank then
      restoreTabs position count
        (line.take position ++ '\t' :: line.drop (position + Text.tabWidth))
    else .error .occupiedTab

/-- Where the first blank of a repaired line is looked for: at its start, or
behind the quotes if they are there. -/
def tabPosition (dollar : Int) (run : Nat) : Nat :=
  let first : Nat := if dollar = 0 then 1 else 0
  if (first : Int) = dollar + run + 1 then first + 1 else first

/-- Quotes the variable at a column, unless it is quoted already. Gives the line
and the number of characters that it has become longer. `written` is the line
as it was written, whose tabs are restored. -/
def variableIn (line written : List Char) (column : Int) : Except Fault (List Char × Nat) := do
  if ← Quoting.check line '"' column (column + 1) then return (line, 0)
  else
    let dollar ← dollarAt line column
    let run := ((Text.after line dollar).takeWhile inRun).length
    let repaired ← restoreTabs (tabPosition dollar run) (written.count '\t') (quoteRun line dollar)
    return (repaired, 2)

end ShellAudit.Repair
