-- SUMMARY: What a walk records about a script: values, assignments, uses, commands, subscripts, tests and pairs.
import ShellAudit.NameSet
import ShellAudit.Syntax.Node
import ShellAudit.Text.Quoted

/-!
# Records

Lines and columns of records are counted from zero, except that a subscript
carries the number of its line counted from one. Columns of a record inside a
command string are those of the string plus the column where it starts.
-/

namespace ShellAudit

/-- A command with its arguments as they are written. -/
structure Command where
  name : String
  arguments : List String
  line : Int
  column : Int
deriving DecidableEq, Repr, Inhabited

/-- The columns between which an expansion stands in its line. -/
structure Frame where
  start : Int
  stop : Int
deriving DecidableEq, Repr, Inhabited

/-- A part of a value that can bring in text from elsewhere. -/
inductive Part where
  /-- A variable written `$name`. -/
  | plain (name : String) (frame : Option Frame)
  /-- A variable written in braces; `mark` is what stands before the name, such as `!`. -/
  | braced (content name mark : String) (frame : Option Frame)
  /-- The output of a command. -/
  | output (command : Command)
  /-- Text that the user types in. -/
  | input
deriving DecidableEq, Repr, Inhabited

namespace Part

/-- The variable that a part reads. -/
def name? : Part → Option String
  | plain name _ => some name
  | braced _ name _ _ => some name
  | _ => none

/-- The columns of the variable that a part reads. -/
def frame? : Part → Option Frame
  | plain _ frame => frame
  | braced _ _ _ frame => frame
  | _ => none

end Part

structure Value where
  content : String
  parts : List Part
deriving DecidableEq, Repr, Inhabited

/-- An assignment to a variable. One that stands before a command, for this
command only, is marked `forCommand`. -/
structure Assignment where
  name : String
  value : Option Value
  line : Int
  column : Int
  forCommand : Bool
deriving DecidableEq, Repr, Inhabited

/-- An expansion, with its text as it is written. -/
structure Use where
  name : String
  line : Int
  column : Int
deriving DecidableEq, Repr, Inhabited

structure Subscript where
  array : String
  index : String
  line : Int
  column : Int
deriving DecidableEq, Repr, Inhabited

/-- A variable that a test or an arithmetic expression evaluates; `opener` is
the token that starts the expression. -/
structure Injectable where
  name : String
  line : Int
  column : Int
  opener : String
deriving DecidableEq, Repr, Inhabited

/-- Two variables that a declaration joins into one word, as in `declare "$a"="$b"`. -/
structure Pair where
  first : String
  second : String
  line : Int
  column : Int
deriving DecidableEq, Repr, Inhabited

/-! ## Functions of a script -/

/-- A function with the parts of its definition. -/
structure Function where
  name : String
  body : List Node
  entered : Bool
deriving Inhabited

/-- The functions of a script in the order in which their names first appear. -/
abbrev FunctionTable := List Function

namespace FunctionTable

/-- Sets the body of a function that has not been entered. A name that is
already there keeps its place. -/
def define (table : FunctionTable) (name : String) (body : List Node) : FunctionTable :=
  if table.any (·.name == name) then
    table.map fun f => if f.name = name then ⟨name, body, false⟩ else f
  else table ++ [⟨name, body, false⟩]

def get? (table : FunctionTable) (name : String) : Option Function :=
  table.find? (·.name == name)

/-- Marks a function as entered. -/
def enter (table : FunctionTable) (name : String) : FunctionTable :=
  table.map fun f => if f.name = name then { f with entered := true } else f

/-- The names of a table. -/
def names (table : FunctionTable) : List String := table.map (·.name)

theorem names_define (table : FunctionTable) (name : String) (body : List Node) :
    (table.define name body).names = if name ∈ table.names then table.names else table.names ++ [name] := by
  have hany : table.any (·.name == name) = true ↔ name ∈ table.names := by
    simp only [names, List.any_eq_true, List.mem_map, beq_iff_eq]
  unfold define
  split
  · rename_i h
    rw [if_pos (hany.1 h), names, names, List.map_map]
    apply List.map_congr_left
    intro f _
    by_cases hf : f.name = name <;> simp [hf]
  · rename_i h
    rw [if_neg (fun hm => h (hany.2 hm))]
    simp [names]

theorem names_enter (table : FunctionTable) (name : String) :
    (table.enter name).names = table.names := by
  rw [names, names, enter, List.map_map]
  apply List.map_congr_left
  intro f _
  by_cases hf : f.name = name <;> simp [hf]

end FunctionTable

/-! ## Surveys -/

/-- Everything that a walk finds in a script: its records in the order in which
they were made, its functions, and the names that user input may reach. -/
structure Survey where
  assigned : List Assignment := []
  used : List Use := []
  commands : List Command := []
  subscripts : List Subscript := []
  injectable : List Injectable := []
  pairs : List Pair := []
  functions : FunctionTable := []
  tainted : NameSet := ∅
deriving Inhabited

/-! ## Parts as debug lines show them -/

namespace Command

def describe (c : Command) : String :=
  "Command(name=" ++ Text.quoted c.name ++ ", arguments=["
    ++ ", ".intercalate (c.arguments.map Text.quoted) ++ "], line=" ++ toString c.line
    ++ ", column=" ++ toString c.column ++ ")"

end Command

namespace Part

private def describeFrame : Option Frame → String
  | some f => "(" ++ toString f.start ++ ", " ++ toString f.stop ++ ")"
  | none => "None"

def describe : Part → String
  | plain name frame =>
    "ValuePlainVariable(variable=" ++ Text.quoted name ++ ", column_frame=" ++ describeFrame frame ++ ")"
  | braced content name mark frame =>
    "ValueParameterExpansion(content=" ++ Text.quoted content ++ ", variable=" ++ Text.quoted name
      ++ ", prefix=" ++ Text.quoted mark ++ ", column_frame=" ++ describeFrame frame ++ ")"
  | output command => "ValueCommandSubtitution(command=" ++ command.describe ++ ")"
  | input => "ValueUserInput()"

end Part

end ShellAudit
