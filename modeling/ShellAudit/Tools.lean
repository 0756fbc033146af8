-- SUMMARY: The programs outside the analysis: a linter and a shell.

/-!
# Outside programs

The linter is asked about a file or about a text, and answers with the bytes it
prints. The shell is asked to run a script. Both are parameters of the analyses,
in a monad of the caller's choice.
-/

namespace ShellAudit

/-- What the linter is asked about. -/
inductive LintTarget where
  | file (path : String)
  | text (content : String)
deriving DecidableEq, Repr, Inhabited

/-- What a script prints. -/
structure Transcript where
  output : String
  errors : String
deriving DecidableEq, Repr, Inhabited

structure Tools (m : Type → Type) where
  lint : LintTarget → m ByteArray
  shell : String → m Transcript

end ShellAudit
