-- SUMMARY: Terminal colours, and texts without them.

/-!
# Colours

A colour is switched on and off by an escape sequence. On anything but a
terminal, texts are shown without them.
-/

namespace ShellAudit.Colour

def red : String := "\x1b[31m"
def yellow : String := "\x1b[33m"
def white : String := "\x1b[37m"
def bright : String := "\x1b[1m"
def reset : String := "\x1b[0m"

/-- Characters that can stand between the bracket and the letter of a sequence. -/
def isArgument (c : Char) : Bool := c.isDigit || c = ';' || c = '?'

/-- The number of characters of an escape sequence behind its escape character,
if the text starts with them. -/
def sequenceLength? : List Char → Option Nat
  | '[' :: cs =>
    let arguments := cs.takeWhile isArgument
    match cs.drop arguments.length with
    | c :: _ => if c.isAlpha then some (arguments.length + 2) else none
    | [] => none
  | _ => none

/-- Drops escape sequences, after passing over `skip` characters. -/
def dropFrom : Nat → List Char → List Char
  | _, [] => []
  | skip + 1, _ :: cs => dropFrom skip cs
  | 0, c :: cs =>
    if c = '\x1b' then
      match sequenceLength? cs with
      | some n => dropFrom n cs
      | none => c :: dropFrom 0 cs
    else c :: dropFrom 0 cs

/-- A text without its escape sequences. -/
def strip (s : String) : String := String.ofList (dropFrom 0 s.toList)

end ShellAudit.Colour
