-- SUMMARY: The reasons for which a walk, a check, a report or a repair stops.

/-!
# Faults

A fault says why an operation stopped. Two of them can be caused by the way
the program is called; their wording is part of its output.
-/

namespace ShellAudit

inductive Fault where
  /-- Parsing a text fails. -/
  | parseFailed
  /-- Bytes are not the encoding of a text. -/
  | notText
  /-- A node lacks a child that its kind asks for. -/
  | missingChild
  /-- A declaration has no text. -/
  | emptyDeclaration
  /-- A function definition has no name. -/
  | unnamedFunction
  /-- An expansion names no parameter. -/
  | unnamedExpansion
  /-- A local name has left the scope before its declaration ended. -/
  | unscopedLocal (name : String)
  /-- A line lies outside the script. -/
  | lineOutOfRange
  /-- A column lies outside its line. -/
  | columnOutOfRange
  /-- A finding or a part of a value has no column. -/
  | missingColumn
  /-- No dollar sign stands at or before the column of a repair. -/
  | missingDollar
  /-- A tab stands for characters that are not blank. -/
  | occupiedTab
  /-- A lint report gives no line number. -/
  | notANumber
  /-- A report format that is announced but cannot be written. -/
  | unwrittenFormat
  /-- A report format that does not exist. -/
  | unknownFormat (format : String)
  /-- Neither a path nor a text is given. -/
  | missingScript
  /-- A path leads to no file. -/
  | fileNotFound
  /-- A path leads to a directory. -/
  | isDirectory
  /-- A path goes through something that is no directory. -/
  | notDirectory
  /-- A path or one of its components is too long. -/
  | nameTooLong
  /-- A path holds a null character. -/
  | nullInPath
  /-- A device does not take or give what is asked of it. -/
  | deviceFailed
  /-- Jumps are nested deeper than the budget of the walk. -/
  | exhausted
deriving DecidableEq, Repr, Inhabited

namespace Fault

/-- The wording of the faults that a caller can cause. -/
def message? : Fault → Option String
  | missingScript => some "Either script_path or script_as_bytes must be provided"
  | unknownFormat format => some ("Unsupported format: " ++ format)
  | _ => none

end Fault

end ShellAudit
