-- SUMMARY: The removal of repeated findings, and of those that a worse one covers.
import ShellAudit.Finding
import ShellAudit.Text.Word

/-!
# Removing duplicates

Findings are grouped by line, in the order in which the lines first appear. In
each group an unquoted expansion is dropped if a command injection of the group
shows one of the variables that it shows. Of the rest, findings with one key
are the same, and the first of them is kept.
-/

namespace ShellAudit.Finding

/-- What two findings have in common when they are the same. -/
structure Key where
  category : Category
  line : Int
  column : Option Int
  content : Option String
deriving DecidableEq, Repr

def key (f : Finding) : Key := ⟨f.category, f.line, f.column, f.content⟩

/-- The names that follow a dollar sign in a text. -/
def dollarNames : List Char → List (List Char)
  | [] => []
  | c :: cs =>
    if c = '$' ∧ cs.takeWhile Text.isWord ≠ [] then cs.takeWhile Text.isWord :: dollarNames cs
    else dollarNames cs

/-- The variables that the content of a finding shows. -/
def shownNames (f : Finding) : List (List Char) := dollarNames (f.content.getD "").toList

/-- Whether one of some findings is a command injection that shows a variable
which `f`, an unquoted expansion, shows too. -/
def isCovered (group : List Finding) (f : Finding) : Bool :=
  f.category = .variableExpansion &&
    group.any fun g => g.category = .commandInjection && f.shownNames.any (g.shownNames.contains ·)

/-- The first element for each key. -/
def firstByKey {α : Type} (view : α → Finding) : List Key → List α → List α
  | _, [] => []
  | seen, x :: xs =>
    if (view x).key ∈ seen then firstByKey view seen xs
    else x :: firstByKey view ((view x).key :: seen) xs

/-- What is left of a group of findings on one line. -/
def dedupGroup {α : Type} (view : α → Finding) (group : List α) : List α :=
  firstByKey view [] (group.filter fun x => !isCovered (group.map view) (view x))

/-- Removes duplicates from things that each show a finding. -/
def dedupOn {α : Type} (view : α → Finding) (xs : List α) : List α :=
  (xs.map fun x => (view x).line).eraseDups.flatMap fun line =>
    dedupGroup view (xs.filter fun x => (view x).line = line)

/-- Removes duplicates from findings. -/
def dedup (fs : List Finding) : List Finding := dedupOn id fs

end ShellAudit.Finding
