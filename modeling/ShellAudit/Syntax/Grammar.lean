-- SUMMARY: A grammar as a table of texts and their trees.
import ShellAudit.Syntax.Node

/-!
# Grammars

The grammar of the shell is given as a table: for each text that is parsed,
its tree, or the fact that parsing it fails. A text that is not in the table
parses to a bare program.
-/

namespace ShellAudit

/-- A table of texts and their trees; `none` marks a text whose parsing fails. -/
structure Grammar where
  entries : List (String × Option Tree)
deriving Inhabited

namespace Grammar

/-- The bare program that spans a text. -/
def bare (text : String) : Tree :=
  { kind := .program, start := 0, stop := text.utf8ByteSize, children := [] }

/-- The tree of a text. Of several entries for one text the last counts. -/
def tree? (g : Grammar) (text : String) : Option Tree :=
  match g.entries.findRev? (fun entry => entry.1 == text) with
  | some (_, tree) => tree
  | none => some (bare text)

/-- The syntax node of a text; `none` if parsing fails. -/
def parse? (g : Grammar) (text : String) : Option Node :=
  (g.tree? text).map (Tree.resolve (Tree.bytes text))

/-- The greatest load of a tree in the table. -/
def load (g : Grammar) : Nat :=
  (g.entries.map fun (text, tree) =>
    match tree with
    | some tree => (tree.resolve (Tree.bytes text)).load
    | none => 0).foldl max 2

/-- A bound on how deep jumps can be nested in a walk of nodes whose load is
`start`. A string that is walked is shorter than the text around it, so no more
strings are nested than the table has entries, and each of them can jump no more
often than its load says. -/
def budget (g : Grammar) (start : Nat) : Nat :=
  Nat.pow (g.load + start + 1) (g.entries.length + 2)

end Grammar

end ShellAudit
