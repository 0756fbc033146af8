-- SUMMARY: Whether a span of a line stands between quotes.
import ShellAudit.Fault
import ShellAudit.Record
import ShellAudit.Text.Search
import ShellAudit.Text.Position

/-!
# Quoting

A span counts as quoted if a quote stands before it and a quote stands behind
it. Positions may be negative; those behind the span are then counted from the
end of the line, and the search goes on from its start. Such a search ends at
the first quote that it meets, and the last character of the line closes nothing.
-/

namespace ShellAudit.Quoting

/-- The last quote before `start`, the nearest to it. -/
def opening? (line : List Char) (quote : Char) (start : Int) : Except Fault (Option Nat) :=
  if start ≤ 0 then .ok none
  else if line.length < start then .error .columnOutOfRange
  else .ok (Text.findLast? [quote] (line.take start.toNat))

/-- Whether a search finds a closing quote that goes through the `ending` of a
line and then through the `whole` of it, both given as marks of the quotes. The
first quote of the ending closes unless the line ends with it. -/
def closesAround (ending whole : List Bool) : Bool :=
  match ending.dropWhile (!·) with
  | [] => whole.contains true
  | _ :: behind => !behind.isEmpty

/-- Whether a quote stands at `stop` or behind it. -/
def closes (line : List Char) (quote : Char) (stop : Int) : Except Fault Bool :=
  if 0 ≤ stop then .ok ((line.drop stop.toNat).contains quote)
  else if line.length < -stop then .error .columnOutOfRange
  else .ok (closesAround ((Text.after line stop).map (· == quote)) (line.map (· == quote)))

/-- Whether the nearest quotes around a span make it quoted. Behind a double
quote that opens a command substitution, nothing does. -/
def check (line : List Char) (quote : Char) (start stop : Int) : Except Fault Bool := do
  let opening ← opening? line quote start
  let inside := match opening with
    | some i => i + 1
    | none => 0
  if quote = '"' ∧ (line.drop inside).take 2 = ['$', '('] then return false
  else
    let closing ← closes line quote stop
    return opening.isSome && closing

/-! ## Escaped quotes -/

/-- For each character of a line, whether it is a quote without a backslash
before it; `last` is the character before the line. -/
def realQuotes (quote : Char) (last : Option Char) : List Char → List Bool
  | [] => []
  | c :: cs => (c = quote && last ≠ some '\\') :: realQuotes quote (some c) cs

/-- Whether a quote that is not escaped stands before a span and one behind it.
At a position counted from the end a backslash escapes nothing. -/
def spanWith (line : List Char) (start stop : Int) (quote : Char) : Except Fault Bool :=
  if line.length < start ∨ line.length < -stop then .error .columnOutOfRange
  else
    let marks := realQuotes quote none line
    let opening := (marks.take start.toNat).contains true
    let closing :=
      if 0 ≤ stop then (marks.drop stop.toNat).contains true
      else closesAround ((Text.after line stop).map (· == quote)) marks
    .ok (opening && closing)

/-- Whether a span of a given length stands between quotes of either kind. -/
def span (line : List Char) (start length : Int) : Except Fault Bool := do
  if ← spanWith line start (start + length) '"' then return true
  else spanWith line start (start + length) '\x27'

/-! ## Assigned values -/

/-- Whether the variable `read` is quoted in the value assigned to `assigned` in
a line. If the line shows no such assignment or no such variable, it is. -/
def valueQuoted (line : List Char) (assigned read : String) : Except Fault Bool :=
  let target := Text.lastComponent assigned.toList ++ ['=']
  match Text.find? target line with
  | none => .ok true
  | some i =>
    let start := i + target.length
    let plain := '$' :: read.toList
    let braced := '$' :: '\x7b' :: read.toList ++ ['\x7d']
    if read = "" then .ok true
    else
      match Text.findFrom? plain start line, Text.findFrom? braced start line with
      | some j, _ => span line j plain.length
      | none, some j => span line j braced.length
      | none, none => .ok true

end ShellAudit.Quoting
