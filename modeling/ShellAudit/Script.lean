-- SUMMARY: A script as the checks see it.
import ShellAudit.FileStore
import ShellAudit.Text.Tab

/-!
# Scripts

A script is a text, whose tabs are written out, with the path it was read from.
The rows are those of the file at that path; there are none if it has no path or
cannot be read.
-/

namespace ShellAudit

structure Script where
  path : Option String
  text : String
  rows : List String
deriving DecidableEq, Repr, Inhabited

namespace Script

/-- The lines that positions are checked against. -/
def lines (s : Script) : List String := Text.linesOf s.text

/-- A script that is read from no file. -/
def ofText (text : String) : Script :=
  { path := none, text := String.ofList (Text.expandTabs text.toList), rows := [] }

/-- The script in the file at a path. -/
def ofFile (store : FileStore) (path : String) : Except Fault Script :=
  match store.readText path with
  | .ok text =>
    .ok { path := some path
          text := String.ofList (Text.expandTabs text.toList)
          rows := Text.rowsOf text }
  | .error fault => .error fault

/-- The script at a path, or else the script that a text is. One of the two has
to be there; an empty one is not. -/
def load (store : FileStore) (path text : Option String) : Except Fault Script :=
  match path.filter (· ≠ ""), text.filter (· ≠ "") with
  | some path, _ => ofFile store path
  | none, some text => .ok (ofText text)
  | none, none => .error .missingScript

end Script

end ShellAudit
