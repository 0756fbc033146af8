-- SUMMARY: Paths as they are written, taken apart and shown.
import ShellAudit.Text.Blank
import ShellAudit.Text.Search

/-!
# Paths

A path is a text whose components stand between slashes. Shown, it has no empty
components and no single dots; two dots stay as they are.
-/

namespace ShellAudit.Path

/-- The components of a path, empty ones included. -/
def components (path : String) : List String :=
  (Text.split ['/'] path.toList).map String.ofList

/-- The components that say something. -/
def proper (path : String) : List String :=
  (components path).filter fun c => c ≠ "" ∧ c ≠ "."

/-- Whether a path starts at the root. -/
def isAbsolute (path : String) : Bool := path.toList.head? = some '/'

/-- Whether a path ends in a slash, as only that of a directory may. -/
def endsInSlash (path : String) : Bool := path.toList.getLast? = some '/'

/-- The path without slashes at its end; the root stays. -/
def withoutSlash (path : String) : String :=
  let kept := Text.trimEnd (· = '/') path.toList
  if kept = [] ∧ path ≠ "" then "/" else String.ofList kept

/-- Whether a path holds the null character, which no name can. -/
def hasNull (path : String) : Bool := path.toList.contains '\x00'

/-- What an absolute path starts with. Exactly two slashes are kept. -/
def anchor (path : String) : String :=
  match path.toList with
  | '/' :: '/' :: '/' :: _ => "/"
  | '/' :: '/' :: _ => "//"
  | '/' :: _ => "/"
  | _ => ""

/-- The path as it is shown. -/
def normalize (path : String) : String :=
  let shown := anchor path ++ "/".intercalate (proper path)
  if shown = "" then "." else shown

end ShellAudit.Path
