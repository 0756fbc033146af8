-- SUMMARY: The records of a survey as entries of one type, with their positions.
import ShellAudit.Walk.State

/-!
# Entries

A survey keeps its records in six lists, one for each kind of record. What is true of
records of every kind is said of entries: where they stand, how they are added to a
survey, and what they are when the text they were found in stands elsewhere.
-/

namespace ShellAudit

/-- A record of any kind. -/
inductive Entry where
  | assignment (a : Assignment)
  | use (u : Use)
  | command (c : Command)
  | subscript (x : Subscript)
  | injectable (i : Injectable)
  | pair (p : Pair)
deriving DecidableEq, Repr

namespace Entry

/-- The line of a record, counted from zero. -/
def line : Entry → Int
  | assignment a => a.line
  | use u => u.line
  | command c => c.line
  | subscript x => x.line - 1
  | injectable i => i.line
  | pair p => p.line

def column : Entry → Int
  | assignment a => a.column
  | use u => u.column
  | command c => c.column
  | subscript x => x.column
  | injectable i => i.column
  | pair p => p.column

end Entry

namespace Survey

/-- The survey with one more record. -/
def add (survey : Survey) : Entry → Survey
  | .assignment a => { survey with assigned := survey.assigned ++ [a] }
  | .use u => { survey with used := survey.used ++ [u] }
  | .command c => { survey with commands := survey.commands ++ [c] }
  | .subscript x => { survey with subscripts := survey.subscripts ++ [x] }
  | .injectable i => { survey with injectable := survey.injectable ++ [i] }
  | .pair p => { survey with pairs := survey.pairs ++ [p] }

/-- The record is in the survey. -/
def Has (survey : Survey) : Entry → Prop
  | .assignment a => a ∈ survey.assigned
  | .use u => u ∈ survey.used
  | .command c => c ∈ survey.commands
  | .subscript x => x ∈ survey.subscripts
  | .injectable i => i ∈ survey.injectable
  | .pair p => p ∈ survey.pairs

instance : Membership Entry Survey := ⟨Has⟩

instance decidableMem (survey : Survey) : (e : Entry) → Decidable (e ∈ survey)
  | .assignment a => inferInstanceAs (Decidable (a ∈ survey.assigned))
  | .use u => inferInstanceAs (Decidable (u ∈ survey.used))
  | .command c => inferInstanceAs (Decidable (c ∈ survey.commands))
  | .subscript x => inferInstanceAs (Decidable (x ∈ survey.subscripts))
  | .injectable i => inferInstanceAs (Decidable (i ∈ survey.injectable))
  | .pair p => inferInstanceAs (Decidable (p ∈ survey.pairs))

theorem mem_def {survey : Survey} {e : Entry} : e ∈ survey ↔ survey.Has e := Iff.rfl

theorem mem_add {survey : Survey} {e d : Entry} : d ∈ survey.add e ↔ d ∈ survey ∨ d = e := by
  cases d <;> cases e <;> simp [mem_def, add, Has]

end Survey

/-! ## Moved records -/

/-- How far records are moved. -/
structure Offset where
  line : Int
  column : Int
deriving DecidableEq, Repr

namespace Command

/-- The command as it is recorded when the text stands elsewhere. -/
def shift (δ : Offset) (c : Command) : Command :=
  { c with line := c.line + δ.line, column := c.column + δ.column }

@[simp] theorem shift_zero (c : Command) : c.shift ⟨0, 0⟩ = c := by
  simp [shift]

end Command

namespace Part

/-- A frame is counted from the start of the text, so only commands are moved. -/
def shift (δ : Offset) : Part → Part
  | output c => output (c.shift δ)
  | p => p

theorem carries_shift (δ : Offset) (tainted : NameSet) (p : Part) :
    (p.shift δ).carries tainted = p.carries tainted := by
  cases p <;> rfl

@[simp] theorem shift_zero (p : Part) : p.shift ⟨0, 0⟩ = p := by
  cases p <;> simp [shift]

end Part

namespace Value

def shift (δ : Offset) (v : Value) : Value := { v with parts := v.parts.map (·.shift δ) }

@[simp] theorem shift_zero (v : Value) : v.shift ⟨0, 0⟩ = v := by
  simp [shift]

end Value

namespace NameSet

/-- Where the commands of a value stand does not matter for what it taints. -/
theorem assign_shift (tainted : NameSet) (name : String) (δ : Offset) (v : Value) :
    tainted.assign name (v.shift δ) = tainted.assign name v := by
  have found : ((v.shift δ).carrier? tainted) = (v.carrier? tainted).map (·.shift δ) := by
    have hcarries : Part.carries tainted ∘ Part.shift δ = Part.carries tainted :=
      funext (Part.carries_shift δ tainted)
    rw [Value.carrier?, Value.shift, List.find?_map, hcarries]
    rfl
  unfold assign
  rw [found]
  cases v.carrier? tainted <;> rfl

end NameSet

namespace Assignment

def shift (δ : Offset) (a : Assignment) : Assignment :=
  { a with
    value := a.value.map (·.shift δ)
    line := a.line + δ.line
    column := a.column + δ.column }

@[simp] theorem shift_zero (a : Assignment) : a.shift ⟨0, 0⟩ = a := by
  simp [shift]

end Assignment

namespace Use

def shift (δ : Offset) (u : Use) : Use :=
  { u with line := u.line + δ.line, column := u.column + δ.column }

@[simp] theorem shift_zero (u : Use) : u.shift ⟨0, 0⟩ = u := by
  simp [shift]

end Use

namespace Subscript

def shift (δ : Offset) (x : Subscript) : Subscript :=
  { x with line := x.line + δ.line, column := x.column + δ.column }

@[simp] theorem shift_zero (x : Subscript) : x.shift ⟨0, 0⟩ = x := by
  simp [shift]

end Subscript

namespace Injectable

def shift (δ : Offset) (i : Injectable) : Injectable :=
  { i with line := i.line + δ.line, column := i.column + δ.column }

@[simp] theorem shift_zero (i : Injectable) : i.shift ⟨0, 0⟩ = i := by
  simp [shift]

end Injectable

namespace Pair

def shift (δ : Offset) (p : Pair) : Pair :=
  { p with line := p.line + δ.line, column := p.column + δ.column }

@[simp] theorem shift_zero (p : Pair) : p.shift ⟨0, 0⟩ = p := by
  simp [shift]

end Pair

namespace Entry

/-- The record as it is made when the text stands elsewhere. -/
def shift (δ : Offset) : Entry → Entry
  | assignment a => assignment (a.shift δ)
  | use u => use (u.shift δ)
  | command c => command (c.shift δ)
  | subscript x => subscript (x.shift δ)
  | injectable i => injectable (i.shift δ)
  | pair p => pair (p.shift δ)

@[simp] theorem shift_zero (e : Entry) : e.shift ⟨0, 0⟩ = e := by
  cases e <;> simp [shift]

end Entry

namespace Survey

/-- The records of a survey as they are made when the text stands elsewhere. -/
def shift (δ : Offset) (survey : Survey) : Survey :=
  { survey with
    assigned := survey.assigned.map (·.shift δ)
    used := survey.used.map (·.shift δ)
    commands := survey.commands.map (·.shift δ)
    subscripts := survey.subscripts.map (·.shift δ)
    injectable := survey.injectable.map (·.shift δ)
    pairs := survey.pairs.map (·.shift δ) }

theorem shift_add (δ : Offset) (survey : Survey) (e : Entry) :
    (survey.add e).shift δ = (survey.shift δ).add (e.shift δ) := by
  cases e <;> simp [shift, add, Entry.shift]

@[simp] theorem shift_zero (survey : Survey) : survey.shift ⟨0, 0⟩ = survey := by
  simp [shift]

end Survey

namespace Walk

/-- The state with one more record. -/
def State.add (s : State) (e : Entry) : State := { s with toSurvey := s.toSurvey.add e }

@[simp] theorem State.functions_add (s : State) (e : Entry) :
    (s.add e).functions = s.functions := by
  cases e <;> rfl

@[simp] theorem State.tainted_add (s : State) (e : Entry) : (s.add e).tainted = s.tainted := by
  cases e <;> rfl

/-- The context of a text that stands elsewhere. -/
def Context.shift (δ : Offset) (ctx : Context) : Context :=
  { ctx with line := ctx.line + δ.line, column := ctx.column + δ.column }

@[simp] theorem Context.shift_zero (ctx : Context) : ctx.shift ⟨0, 0⟩ = ctx := by
  simp [shift]

@[simp] theorem Context.column_shift (δ : Offset) (ctx : Context) :
    (ctx.shift δ).column = ctx.column + δ.column := rfl

end Walk

namespace Node

@[simp] theorem lineIn_shift (n : Node) (ctx : Walk.Context) (δ : Offset) :
    n.lineIn (ctx.shift δ) = n.lineIn ctx + δ.line :=
  Int.add_right_comm ctx.line δ.line n.row

@[simp] theorem columnIn_shift (n : Node) (ctx : Walk.Context) (δ : Offset) :
    n.columnIn (ctx.shift δ) = n.columnIn ctx + δ.column :=
  Int.add_right_comm ctx.column δ.column n.column

end Node

end ShellAudit
