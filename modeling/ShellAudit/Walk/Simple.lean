-- SUMMARY: A scan for simple variables in a text that could not be walked.
import ShellAudit.Record

/-!
# Simple variables

When the tree of a command string cannot be walked, the string is scanned for
`$name` and `${name`. The scan goes on behind each variable that it finds.
-/

namespace ShellAudit.Walk

/-- Characters that can start the name of a variable. -/
def startsName (c : Char) : Bool := c.isAlpha || c = '_'

/-- Characters that can stand in the name of a variable. -/
def continuesName (c : Char) : Bool := c.isAlphanum || c = '_'

/-- The name that starts a text, after an opening brace if there is one, and
empty if no name does. -/
def leadingName (s : List Char) : List Char :=
  let s := match s with
    | '\x7b' :: rest => rest
    | _ => s
  match s with
  | c :: _ => if startsName c then s.takeWhile continuesName else []
  | [] => []

/-- The number of characters that a variable takes up behind its dollar sign,
the braces around the name included. -/
def leadingLength (s : List Char) : Nat :=
  let opening := match s with
    | '\x7b' :: _ => 1
    | _ => 0
  let inner := opening + (leadingName s).length
  match s.drop inner with
  | '\x7d' :: _ => inner + 1
  | _ => inner

/-- The simple variables of a text whose first character has index `column`,
after passing over `skip` characters. -/
def simpleUsesFrom (line : Int) : Nat → Nat → List Char → List Use
  | _, _, [] => []
  | skip + 1, column, _ :: cs => simpleUsesFrom line skip (column + 1) cs
  | 0, column, c :: cs =>
    if c = '$' ∧ leadingName cs ≠ [] then
      { name := String.ofList ('$' :: leadingName cs), line := line, column := column }
        :: simpleUsesFrom line (leadingLength cs) (column + 1) cs
    else simpleUsesFrom line 0 (column + 1) cs

/-- The simple variables of a text, recorded on one line. -/
def simpleUses (line : Int) (s : String) : List Use := simpleUsesFrom line 0 0 s.toList

end ShellAudit.Walk
