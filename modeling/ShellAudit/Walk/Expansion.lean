-- SUMMARY: What a walk records for an expansion and for a subscript.
import ShellAudit.Walk.State
import ShellAudit.Text.Blank

/-!
# Expansions and subscripts

An expansion is recorded as a use under its whole text. A text with a bracket in
it is also recorded as a subscript, taken apart by its spelling alone.
-/

namespace ShellAudit

namespace Subscript

/-- The name before the first bracket, and what stands between this bracket and
the last character. Without a bracket, both are all but the last character. -/
def cut (s : List Char) : List Char × List Char :=
  match s.idxOf? '[' with
  | some i => (s.take i, (s.drop (i + 1)).dropLast)
  | none => (s.dropLast, s.dropLast)

/-- The name and the index of an array element as it is assigned (`a[i]=v`),
expanded (`${a[i]}`) or named (`a[i]`). -/
def parse (s : List Char) : List Char × List Char :=
  if '=' ∈ s then cut (Text.trim Text.isBlank (Text.beforeEquals s))
  else
    match s with
    | '$' :: '\x7b' :: inner => cut inner.dropLast
    | _ => cut s

end Subscript

namespace Walk

/-- Records the text of a node as a subscript. -/
def subscript (ctx : Context) (node : Node) : Walk Unit := do
  let (array, index) := Subscript.parse (← text node).toList
  recordSubscript
    { array := String.ofList array
      index := String.ofList index
      line := node.lineIn ctx + 1
      column := node.columnIn ctx }

theorem exec_subscript {ctx : Context} {node : Node} {written : String}
    (h : node.text = some written) (s : State) :
    (subscript ctx node).exec s =
      (.ok (), { s with
        subscripts := s.subscripts ++
          [{ array := String.ofList (Subscript.parse written.toList).1
             index := String.ofList (Subscript.parse written.toList).2
             line := node.lineIn ctx + 1
             column := node.columnIn ctx }] }) := by
  unfold subscript
  rw [exec_bind, exec_text h]
  rfl

/-- Records an expansion as a use, and as a subscript if it has a bracket. -/
def expansion (ctx : Context) (node : Node) : Walk Unit := do
  let written ← text node
  when ('[' ∈ written.toList) (subscript ctx node)
  recordUse { name := written, line := node.lineIn ctx, column := node.columnIn ctx }

/-! ## The parameter of an expansion -/

mutual

/-- The first parameter below a node, the node itself included. A parameter
without text is passed over, unless it is the node itself. -/
def parameter? : Node → Except Fault (Option String)
  | ⟨kind, text, _, _, _, children⟩ =>
    if kind.isParameter then
      match text with
      | some text => .ok (some text)
      | none => .error .notText
    else firstParameter? children

def firstParameter? : List Node → Except Fault (Option String)
  | [] => .ok none
  | n :: ns =>
    match parameter? n with
    | .ok (some name) => if name = "" then firstParameter? ns else .ok (some name)
    | .ok none => firstParameter? ns
    | .error fault => .error fault

end

/-- What stands in `text` between its first opening brace and the first place
of `name`. If the name is not there, the last character is left off instead. -/
def markBefore (text name : List Char) : List Char :=
  let start := match text.idxOf? '\x7b' with
    | some i => i + 1
    | none => 0
  match Text.find? name text with
  | some stop => (text.take stop).drop start
  | none => text.dropLast.drop start

/-- The part that an expansion in braces is. -/
def braced (node : Node) (frame : Option Frame) : Except Fault Part := do
  let name? ← parameter? node
  match node.text, name? with
  | none, _ => throw .notText
  | some _, none => throw .unnamedExpansion
  | some content, some name =>
    return .braced content name (String.ofList (markBefore content.toList name.toList)) frame

/-- The columns between which a node stands in its own text. -/
def frameOf (node : Node) : Frame := ⟨node.column, node.endColumn⟩

end Walk

end ShellAudit
