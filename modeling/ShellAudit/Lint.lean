-- SUMMARY: The reading of a linter's report.
import ShellAudit.Finding.Wording
import ShellAudit.Finding
import ShellAudit.Script
import ShellAudit.Text.Decimal
import ShellAudit.Text.Search
import ShellAudit.Tools

/-!
# Lint reports

A report is a sequence of entries. The head of an entry names the script and the
number of a line; the line itself and information about it follow. A section of
links may end the report. An information line stands under the column that it is
about, so its indentation is that column.
-/

namespace ShellAudit.Lint

/-! ## Entries -/

/-- The path of a script, if it has one that is not empty. -/
def path? (script : Script) : Option String := script.path.filter (· ≠ "")

/-- How the head of an entry starts. -/
def headOf (script : Script) : List Char := "In ".toList ++ ((path? script).getD "-").toList

/-- Cuts the lines of a report into entries, `current` being the lines seen
since the last head. Lines before the first head are dropped when a head comes,
and make an entry if none does. -/
def entriesFrom (head : List Char) (current : List (List Char)) :
    List (List Char) → List (List (List Char))
  | [] => if current = [] then [] else [current]
  | line :: rest =>
    if head.isPrefixOf line then
      match current with
      | first :: _ =>
        if head.isPrefixOf first then current :: entriesFrom head [line] rest
        else entriesFrom head [line] rest
      | [] => entriesFrom head [line] rest
    else entriesFrom head (current ++ [line]) rest

/-- The start of the section of links. -/
def linksHead : List Char := "For more information".toList

/-- The entries of a report. -/
def entries (head report : List Char) : List (List (List Char)) :=
  entriesFrom head [] ((Text.lines report).takeWhile fun line => !linksHead.isPrefixOf line)

/-- The number of the line that an entry is about: what stands behind the word
`line`, up to a colon, both after the head. -/
def lineNumber (head : List Char) (entry : List (List Char)) : Except Fault Int :=
  let text := ['\n'].intercalate entry
  let start := match Text.findFrom? "line".toList head.length text with
    | some i => i + 5
    | none => 4
  let upTo := match Text.findFrom? [':'] head.length text with
    | some j => text.take j
    | none => text.dropLast
  match Text.integer? (upTo.drop start) with
  | some n => .ok n
  | none => .error .notANumber

/-! ## Information lines -/

/-- A kind of trouble that an information line can speak of. -/
structure Trigger where
  phrases : List String
  category : Category
  severity : Severity
  description : String
  recommendation : String

def unquotedVariable : Trigger where
  phrases := ["SC2086 (info): Double quote to prevent globbing and word splitting."]
  category := .variableExpansion
  severity := .medium
  description := Wording.unquotedVariable
  recommendation := Wording.quoteVariables

def globExpansion : Trigger where
  phrases :=
    ["SC2060 (warning): Quote parameters to tr to prevent glob expansion.",
      "SC2053 (warning): Quote the right-hand side of = in [[ ]] to prevent glob matching."]
  category := .globExpansion
  severity := .medium
  description := Wording.globExpansion
  recommendation := Wording.quoteParameters

def unquotedSubstitution : Trigger where
  phrases := ["SC2046"]
  category := .unquotedCommandSubstitution
  severity := .high
  description := Wording.unquotedSubstitution
  recommendation := Wording.quoteSubstitution

/-- The phrase that marks an error. -/
def errorPhrase : List Char := "(error):".toList

/-- The error that only says that there are others; nothing after it is read. -/
def lastError : List Char := "SC1072 (error):  Fix any mentioned problems and try again".toList

/-- An error in the syntax of the script, described by the text behind the phrase. -/
def syntaxError? (info : List Char) : Option Trigger :=
  (Text.find? errorPhrase info).map fun i =>
    { phrases := ["(error):"]
      category := .syntaxError
      severity := .low
      description := String.ofList (info.drop (i + errorPhrase.length + 1))
      recommendation := Wording.mendSyntax }

/-- What an information line speaks of. -/
def triggers (info : List Char) : List Trigger :=
  (syntaxError? info).toList
    ++ [unquotedVariable, globExpansion, unquotedSubstitution].filter fun t =>
      t.phrases.any fun phrase => Text.contains info phrase.toList

/-- The findings of an information line about line `number`. -/
def readInfo (script : Script) (number : Int) (info : List Char) : Except Fault (List Finding) :=
  (triggers info).mapM fun t =>
    Finding.place script.rows
      { category := t.category
        severity := t.severity
        description := t.description
        file := script.path
        line := number - 1
        column := some (info.takeWhile (· = ' ')).length
        recommendation := some t.recommendation }

/-- The findings of an entry. -/
def readEntry (script : Script) (entry : List (List Char)) : Except Fault (List Finding) := do
  let number ← lineNumber (headOf script) entry
  let infos := (entry.drop 2).takeWhile fun info => !Text.contains info lastError
  return (← infos.mapM (readInfo script number)).flatten

/-- The findings of a report about a script. -/
def read (script : Script) (report : List Char) : Except Fault (List Finding) := do
  return (← (entries (headOf script) report).mapM (readEntry script)).flatten

/-- The findings of the report that the bytes printed by a linter are. -/
def readBytes (script : Script) (bytes : ByteArray) : Except Fault (List Finding) :=
  match String.fromUTF8? bytes with
  | some report => read script report.toList
  | none => .error .notText

/-- What the linter is asked about to lint a script. -/
def target (script : Script) : LintTarget :=
  match path? script with
  | some path => .file path
  | none => .text script.text

end ShellAudit.Lint
