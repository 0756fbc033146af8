-- SUMMARY: Test conditions taken from a line, and the script that probes whether they run their operand.
import ShellAudit.Text.Blank
import ShellAudit.Text.Search
import ShellAudit.Tools

/-!
# Probing tests

A test that evaluates its operand as arithmetic runs the command substitutions
in array indices. To see whether a test of the script does, its conditions are
put into a script of our own, in which the operand is an index that prints a
tell-tale word when it is run.
-/

namespace ShellAudit.Probe

/-- What a line has to offer for probing: conditions taken out of a test, or the
line itself if the test does not start in it. -/
inductive Material where
  | conditions (cs : List String)
  | line (text : String)
deriving DecidableEq, Repr, Inhabited

/-- The texts that are tried one after the other. A line is tried one character
at a time. -/
def Material.attempts : Material → List String
  | conditions cs => cs
  | line text => text.toList.map fun c => String.ofList [c]

/-- The token that closes a test. -/
def closer (opener : String) : String :=
  if opener = "[" then "]"
  else if opener = "[[" then "]]"
  else if opener = "((" then "))"
  else ""

/-- The text from the opener at `start` up to the last closer. Without a closer
it ends one character before the closer would, were it at the start of the line. -/
def testText (line closing : List Char) (start : Nat) : List Char :=
  let stop := match Text.findLast? closing line with
    | some i => i + closing.length
    | none => closing.length - 1
  (line.take stop).drop start

/-- The conditions of the test from the opener at `start` on that mention a
variable. -/
def conditionsOf (content : List Char) (opener name : String) (start : Nat) : List (List Char) :=
  let closing := (closer opener).toList
  let inner := Text.replace closing [] (Text.replace opener.toList [] (testText content closing start))
  (Text.split "&&".toList inner).filter (Text.contains · name.toList)

/-- A condition as a test of its own. -/
def bracket (opener : String) (condition : List Char) : String :=
  opener ++ " " ++ String.ofList condition ++ " " ++ closer opener

/-- The conditions of a test that mention a variable, each a test of its own. -/
def extract (line opener name : String) : Material :=
  let content := Text.trim Text.isBlank line.toList
  match Text.find? opener.toList content with
  | none => .line (String.ofList content)
  | some start => .conditions ((conditionsOf content opener name start).map (bracket opener))

/-- The variable that stands for the operand. -/
def operand : String := "var"

/-- What stands before the condition in the script that tries it: the operand is
set to an index that reads the tell-tale word from a file. -/
def preamble : String :=
  "\n            WORKDIR=$(mktemp -d) || exit 1"
    ++ "\n            echo \"pwned.pwned.pwned\" > $WORKDIR/flag"
    ++ "\n            " ++ operand ++ "=\"a[\\$(<$WORKDIR/flag)]\""
    ++ "\n            if "

/-- What stands behind the condition. -/
def conclusion : String :=
  " ; then"
    ++ "\n                echo \"" ++ operand ++ "\""
    ++ "\n            else"
    ++ "\n                echo \"" ++ operand ++ "\""
    ++ "\n            fi\n            "

/-- The script that tries a condition. -/
def script (condition : String) : String := preamble ++ condition ++ conclusion

/-- Whether a transcript shows the tell-tale word. -/
def tells (t : Transcript) : Bool :=
  Text.contains t.output.toList "pwned".toList || Text.contains t.errors.toList "pwned".toList

/-- The condition with the operand in the place of a variable. -/
def substitute (name condition : String) : String :=
  String.ofList (Text.replace name.toList operand.toList condition.toList)

/-- Tries conditions until one tells. Once the operand has taken the place of
the variable in the first of them, it is what the others are searched for. -/
def attack {m : Type → Type} [Monad m] (shell : String → m Transcript) :
    List String → String → m Bool
  | [], _ => return false
  | condition :: rest, name => do
    let transcript ← shell (script (substitute name condition))
    if tells transcript then return true
    else attack shell rest operand

end ShellAudit.Probe
