-- SUMMARY: JSON values with ordered members, and their text with four blanks of indentation.
import ShellAudit.Number.Numeral
import ShellAudit.Text.Hex

/-!
# JSON

Objects keep their members in order. The text of a value is made of the visible
ASCII characters and the space: every other character is written by its UTF-16
units.
-/

namespace ShellAudit

inductive Json where
  | null
  | bool (b : Bool)
  | number (n : Int)
  | real (x : Binary)
  | text (s : String)
  | list (items : List Json)
  | object (members : List (String × Json))
deriving Inhabited

namespace Json

/-! ## Texts -/

/-- The escape of a UTF-16 unit. -/
def unit (n : Nat) : List Char := '\\' :: 'u' :: Text.hex 4 n

/-- A character inside a JSON text. -/
def escaped (c : Char) : List Char :=
  if c = '"' ∨ c = '\\' then ['\\', c]
  else if c = '\n' then ['\\', 'n']
  else if c = '\r' then ['\\', 'r']
  else if c = '\t' then ['\\', 't']
  else if c.toNat = 0x08 then ['\\', 'b']
  else if c.toNat = 0x0C then ['\\', 'f']
  else if 0x20 ≤ c.toNat ∧ c.toNat < 0x7F then [c]
  else if c.toNat < 0x10000 then unit c.toNat
  else
    let n := c.toNat - 0x10000
    unit (0xD800 + n / 0x400) ++ unit (0xDC00 + n % 0x400)

def quoted (s : String) : String :=
  String.ofList ('"' :: s.toList.flatMap escaped ++ ['"'])

/-! ## Values -/

/-- The start of a line that is `depth` levels deep. -/
def indentation (depth : Nat) : String := String.ofList (List.replicate (4 * depth) ' ')

/-- The items between two brackets, each on a line of its own, and just the
brackets if there are none. -/
def block (opening closing : String) (depth : Nat) (items : List String) : String :=
  match items with
  | [] => opening ++ closing
  | _ =>
    opening ++ "\n"
      ++ ",\n".intercalate (items.map fun item => indentation (depth + 1) ++ item)
      ++ "\n" ++ indentation depth ++ closing

mutual

/-- The text of a value that stands `depth` levels deep. -/
def render (depth : Nat) : Json → String
  | null => "null"
  | bool b => if b then "true" else "false"
  | number n => toString n
  | real x => x.text
  | text s => quoted s
  | list items => block "[" "]" depth (renderItems (depth + 1) items)
  | object members => block "\x7b" "\x7d" depth (renderMembers (depth + 1) members)

def renderItems (depth : Nat) : List Json → List String
  | [] => []
  | item :: items => render depth item :: renderItems depth items

def renderMembers (depth : Nat) : List (String × Json) → List String
  | [] => []
  | (key, item) :: members => (quoted key ++ ": " ++ render depth item) :: renderMembers depth members

end

end Json

end ShellAudit
