-- SUMMARY: The repair of a command substitution that is not quoted.
import ShellAudit.Fault
import ShellAudit.Text.Position
import ShellAudit.Text.Search

/-!
# Quoting a command substitution

A substitution in backticks is written with a dollar sign and parentheses and
put between double quotes. One that is written so is put between double quotes
up to the parenthesis that closes it.
-/

namespace ShellAudit.Repair

/-- Quotes the substitution between the backtick at `start` and the next one. -/
def backticks (line : List Char) (start : Int) : List Char × Nat :=
  match Text.findFrom? ['\x60'] (Text.bound line.length (start + 1)) line with
  | none => (line, 0)
  | some stop =>
    let inner := Text.slice line (start + 1) stop
    (Text.before line start ++ "\"$(".toList ++ inner ++ ")\"".toList ++ line.drop (stop + 1), 3)

/-- The position at which as many parentheses are closed as opened, for the
first time, in a text that starts at `position` with `depth` of them open. -/
def matching? (depth : Int) (position : Int) : List Char → Option Int
  | [] => none
  | c :: cs =>
    if c = '(' then matching? (depth + 1) (position + 1) cs
    else if c = ')' then
      if depth = 1 then some position else matching? (depth - 1) (position + 1) cs
    else matching? depth (position + 1) cs

/-- The characters from a signed position on. Those counted from the end are
followed by the whole line. -/
def charsFrom (line : List Char) (start : Int) : List Char :=
  if 0 ≤ start then Text.after line start else Text.after line start ++ line

/-- Quotes the substitution that starts at `start`, if it is closed. -/
def parentheses (line : List Char) (start : Int) : Except Fault (List Char × Nat) :=
  if start < 0 ∧ line.length < -start then .error .columnOutOfRange
  else
    match matching? 0 start (charsFrom line start) with
    | none => .ok (line, 0)
    | some last =>
      let inner := Text.slice line start (last + 1)
      .ok (Text.before line start ++ '"' :: inner ++ '"' :: Text.after line (last + 1), 2)

/-- Quotes the substitution at a column. Gives the line and the number of
characters that it has become longer. -/
def substitutionIn (line : List Char) (column : Int) : Except Fault (List Char × Nat) :=
  match Text.at? line column with
  | none => .error .columnOutOfRange
  | some c =>
    if c = '\x60' then .ok (backticks line column)
    else if c = '$' then parentheses line column
    else .ok (line, 0)

end ShellAudit.Repair
