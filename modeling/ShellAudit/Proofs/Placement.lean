-- SUMMARY: What a walk records of a regular tree stands in the rows of the script.
import Mathlib.Tactic.MkIffOfInductiveProp
import ShellAudit.Proofs.Locals
import ShellAudit.Proofs.Positions
import ShellAudit.Proofs.Termination
import ShellAudit.Quoting

/-!
# Where records stand

The checks take the lines and columns of records for indices into the script. A record
has the place of the node it is made for, so it stands in the script if the node does.
There are three exceptions. Columns count bytes, and may lie behind the end of a row
with characters of several bytes. The variables of a value are looked up in the row of
the assignment, whatever row they are in. And a command string is walked at a place that
is computed from the spelling of the command, together with the functions that it calls.

A tree without the first two is regular. A command string need not stand where it is
taken to be, so this is asked of each of its nodes.
-/

namespace ShellAudit

namespace Text

/-- There is such a row. -/
def HasRow (rows : List (List Char)) (line : Int) : Prop :=
  ∃ i : Nat, line = i ∧ i < rows.length

/-- The column is in the line, and the character stands there or before it. -/
def Reaches (rows : List (List Char)) (c : Char) (line column : Nat) : Prop :=
  ∃ row ∈ rows[line]?, column < (chomp row).length ∧ c ∈ row.take (column + 1)

instance (rows : List (List Char)) (c : Char) (line column : Nat) :
    Decidable (Reaches rows c line column) :=
  inferInstanceAs (Decidable (∃ row ∈ rows[line]?, _ ∧ _))

end Text

namespace Quoting

/-- How a variable is written. -/
def spellings (name : String) : List (List Char) :=
  ['$' :: name.toList, '$' :: '\x7b' :: name.toList ++ ['\x7d']]

/-- Wherever the line shows the variable, it stands between quotes. -/
def Quotes (line : List Char) (name : String) : Prop :=
  ∀ spelling ∈ spellings name, ∀ i < line.length,
    spelling.isPrefixOf (line.drop i) = true → span line i spelling.length = .ok true

instance (line : List Char) (name : String) : Decidable (Quotes line name) :=
  haveI (spelling : List Char) : Decidable (∀ i < line.length,
      spelling.isPrefixOf (line.drop i) = true → span line i spelling.length = .ok true) :=
    Nat.decidableBallLT _ _
  List.decidableBAll _ _

end Quoting

/-- Where a line is searched for a variable, the column of the variable leads to a dollar
sign, or else the line shows the variable in quotes only. -/
def Text.Locates (rows : List (List Char)) (line column : Nat) (name : String) : Prop :=
  Reaches rows '$' line column ∨ ∃ row ∈ rows[line]?, Quoting.Quotes (chomp row) name

instance (rows : List (List Char)) (line column : Nat) (name : String) :
    Decidable (Text.Locates rows line column name) :=
  inferInstanceAs (Decidable (_ ∨ ∃ row ∈ rows[line]?, _))

/-- If the part has a variable, the line can be searched for it. -/
def Part.StandsIn (rows : List (List Char)) (line : Nat) (p : Part) : Prop :=
  ∀ name, p.name? = some name → ∃ (frame : Frame) (column : Nat),
    p.frame? = some frame ∧ frame.start = column ∧ Text.Locates rows line column name

/-- Every record is in a row, and what it looks for is at its column. -/
structure Survey.StandsIn (rows : List (List Char)) (survey : Survey) : Prop where
  used : ∀ u ∈ survey.used, ∃ line column : Nat,
    u.line = line ∧ u.column = column ∧ Text.Reaches rows '$' line column
  commands : ∀ c ∈ survey.commands, Text.HasRow rows c.line
  subscripts : ∀ s ∈ survey.subscripts, Text.HasRow rows (s.line - 1)
  injectable : ∀ i ∈ survey.injectable, Text.HasRow rows i.line
  pairs : ∀ p ∈ survey.pairs, Text.HasRow rows p.line
  assigned : ∀ a ∈ survey.assigned, ∃ line : Nat, a.line = line ∧ line < rows.length ∧
    ∀ value, a.value = some value → ∀ p ∈ value.parts, p.StandsIn rows line

/-- Functions and taint have no place. -/
theorem Survey.StandsIn.update {rows : List (List Char)} {survey : Survey}
    (h : survey.StandsIn rows) (functions : FunctionTable) (tainted : NameSet) :
    Survey.StandsIn rows { survey with functions := functions, tainted := tainted } :=
  ⟨h.used, h.commands, h.subscripts, h.injectable, h.pairs, h.assigned⟩

/-! ## Placed nodes -/

namespace Node

/-- Where the walk adds `line` to rows and `column` to columns, the node has all that it
asks for, and what is recorded stands in the rows. Only where nothing is added may one of
the functions be defined or called. -/
@[mk_iff] structure Placed (functions : List String) (rows : List (List Char)) (line column : Nat)
    (n : Node) : Prop where
  complete : n.Complete
  settled : n.Settled
  row : n.kind.isRecorded = true → line + n.row < rows.length
  dollar : n.kind.isExpansion = true →
    Text.Reaches rows '$' (line + n.row) (column + n.column)
  -- The columns of the variables of a value are not moved.
  value : n.kind = .variableAssignment → n.Every fun m => ∀ name ∈ m.reads?,
    Text.Locates rows (line + n.row) m.column name
  named : ∀ name ∈ n.defines?, name ∈ functions
  home : line = 0 ∧ column = 0 ∨ n.defines? = none ∧ ∀ name ∈ n.calls?, name ∉ functions

instance (functions : List String) (rows : List (List Char)) (line column : Nat) :
    DecidablePred (Placed functions rows line column) :=
  fun n =>
    haveI : DecidablePred fun m : Node => ∀ name ∈ m.reads?,
        Text.Locates rows (line + n.row) m.column name :=
      fun m => inferInstanceAs (Decidable (∀ name ∈ m.reads?, _))
    decidable_of_iff' _ (placed_iff functions rows line column n)

/-- The column at which the walk takes the text that a command runs to start. It expects one
blank, `-c`, a blank and a quote behind the name, and adds `column` twice. -/
def scriptColumn (column : Nat) (n : Node) : Nat :=
  column + (column + n.draft.column) + n.draft.name.length + 1 + 4

/-- Command strings are nested at most `depth` deep in the node, and their nodes are placed. -/
def Embeds (parse? : String → Option Node) (functions : List String) (rows : List (List Char)) :
    (depth line column : Nat) → Node → Prop
  | 0, _, _, n => n.RunsNoText
  | depth + 1, line, column, n =>
    n.kind = .command → n.draft.name ∈ Walk.shells →
      ∀ script ∈ Walk.scriptArgument? n.draft.arguments,
        ∃ root ∈ parse? (String.ofList (Walk.unquote script.toList)), root.Every fun m =>
          m.Placed functions rows (line + n.row) (n.scriptColumn column) ∧
            m.Embeds parse? functions rows depth (line + n.row) (n.scriptColumn column)

instance decidableEmbeds (parse? : String → Option Node) (functions : List String)
    (rows : List (List Char)) :
    (depth line column : Nat) → DecidablePred (Embeds parse? functions rows depth line column)
  | 0, _, _ => inferInstanceAs (DecidablePred RunsNoText)
  | depth + 1, line, column => fun n =>
    haveI := decidableEmbeds parse? functions rows depth (line + n.row) (n.scriptColumn column)
    inferInstanceAs (Decidable (_ → _ → ∀ script ∈ Walk.scriptArgument? n.draft.arguments,
      ∃ root ∈ parse? (String.ofList (Walk.unquote script.toList)), root.Every fun m =>
        m.Placed functions rows (line + n.row) (n.scriptColumn column) ∧
          m.Embeds parse? functions rows depth (line + n.row) (n.scriptColumn column)))

/-! ## Regular nodes -/

theorem isExpansion_of_reads? {n : Node} {name : String} (h : n.reads? = some name) :
    n.kind.isExpansion = true := by
  unfold reads? at h
  split at h
  · rename_i hkind
    rw [hkind]
    rfl
  · rename_i hkind
    rw [hkind]
    rfl
  · cases h

/-- The variables that are read below the node are read in its row, or only quoted there. -/
def ReadsInRow (rows : List (List Char)) (n : Node) : Prop :=
  n.Every fun m => ∀ name ∈ m.reads?,
    m.row = n.row ∨ Quoting.Quotes (Text.chomp (rows[n.row]?.getD [])) name

instance (rows : List (List Char)) (n : Node) : Decidable (n.ReadsInRow rows) := decidableEvery _ n

/-- The node has all that a walk asks of it, and a text if it is recorded. Expansions start
with a dollar sign, and their columns are in their rows. A variable that an assigned value
reads in another row is shown in quotes only in the row of the assignment. -/
@[mk_iff] structure Regular (functions : List String) (rows : List (List Char)) (n : Node) :
    Prop where
  complete : n.Complete
  settled : n.Settled
  text : n.kind.isRecorded = true → n.text ≠ some ""
  dollar : n.kind.isExpansion = true → n.text.bind (·.toList.head?) = some '$'
  inside : n.kind.isExpansion = true → n.column < (Text.chomp (rows[n.row]?.getD [])).length
  value : n.kind = .variableAssignment → n.ReadsInRow rows
  named : ∀ name ∈ n.defines?, name ∈ functions

instance (functions : List String) (rows : List (List Char)) :
    DecidablePred (Regular functions rows) :=
  fun n => decidable_of_iff' _ (regular_iff functions rows n)

section

variable {functions : List String} {s : List Char} {n : Node}

theorem Regular.row_lt (h : n.Regular functions (Text.rows s)) (hn : n.StandsIn s)
    (hkind : n.kind.isRecorded = true) : n.row < (Text.rows s).length := by
  obtain ⟨text, htext⟩ := Option.ne_none_iff_exists'.1 (complete_iff.1 h.complete).1
  have hne : text.toList ≠ [] := fun hempty =>
    h.text hkind (by rw [htext, String.toList_eq_nil_iff.1 hempty])
  obtain ⟨row, hrow, -⟩ := hn.rows htext (List.head?_eq_some_head hne)
  exact (List.getElem?_eq_some_iff.1 hrow).1

theorem Regular.reaches (h : n.Regular functions (Text.rows s)) (hn : n.StandsIn s)
    (hkind : n.kind.isExpansion = true) : Text.Reaches (Text.rows s) '$' n.row n.column := by
  obtain ⟨text, htext, hhead⟩ := Option.bind_eq_some_iff.1 (h.dollar hkind)
  obtain ⟨row, hrow, hdollar⟩ := hn.rows htext hhead
  have hinside := h.inside hkind
  rw [hrow, Option.getD_some] at hinside
  exact ⟨row, hrow, hinside, hdollar⟩

/-- Regular nodes that stand in the text are placed in its rows. -/
theorem every_placed (h : n.Every fun m => m.Regular functions (Text.rows s) ∧ m.StandsIn s) :
    n.Every (Placed functions (Text.rows s) 0 0) := by
  induction n using Node.induction with
  | step n ih =>
    obtain ⟨⟨hregular, hn⟩, hchildren⟩ := every_iff.1 h
    refine every_iff.2 ⟨?_, fun c hc => ih c hc (hchildren c hc)⟩
    refine { hregular with row := ?_, dollar := ?_, value := ?_, home := .inl ⟨rfl, rfl⟩ }
    · intro hkind
      rw [Nat.zero_add]
      exact hregular.row_lt hn hkind
    · intro hkind
      rw [Nat.zero_add, Nat.zero_add]
      exact hregular.reaches hn hkind
    · intro hkind
      have hrow := List.getElem?_eq_getElem (hregular.row_lt hn (by rw [hkind]; rfl))
      have hvalue := hregular.value hkind
      unfold ReadsInRow at hvalue
      rw [hrow, Option.getD_some] at hvalue
      refine (h.and hvalue).imp fun m hm name hname => ?_
      obtain ⟨⟨hregular, hm⟩, hreads⟩ := hm
      rw [Nat.zero_add]
      rcases hreads name hname with hsame | hquotes
      · rw [← hsame]
        exact .inl (hregular.reaches hm (isExpansion_of_reads? hname))
      · exact .inr ⟨_, hrow, hquotes⟩

end

end Node

/-! ## Walks -/

namespace Walk

variable {parse? : String → Option Node} {functions : List String} {rows : List (List Char)}

/-- The node is placed, and so are the nodes of all command strings in it. -/
def Sited (parse? : String → Option Node) (functions : List String) (rows : List (List Char))
    (line column : Nat) (n : Node) : Prop :=
  n.Placed functions rows line column ∧
    ∃ depth, n.Embeds parse? functions rows depth line column

/-- Nodes that are walked where the context says. -/
def SitedIn (parse? : String → Option Node) (functions : List String) (rows : List (List Char))
    (ctx : Context) (n : Node) : Prop :=
  ∃ line column : Nat, ctx.line = line ∧ ctx.column = column ∧
    n.Every (Sited parse? functions rows line column)

/-- Texts that are run where the context says. -/
def RunIn (parse? : String → Option Node) (functions : List String) (rows : List (List Char))
    (ctx : Context) (script : String) : Prop :=
  ∃ root, parse? (String.ofList (unquote script.toList)) = some root ∧
    SitedIn parse? functions rows ctx root

/-- The functions are known, with bodies that are placed, and the records stand in the rows. -/
structure Located (parse? : String → Option Node) (functions : List String)
    (rows : List (List Char)) (s : State) : Prop where
  names : s.functions.names ⊆ functions
  bodies : FunctionTable.Bodies (Sited parse? functions rows 0 0) s.functions
  records : s.toSurvey.StandsIn rows

theorem standsIn_add {M : String → String → Prop} {ctx : Context} {n : Node} {s : State}
    {e : Entry} (hn : SitedIn parse? functions rows ctx n) (hmakes : Makes M ctx n e)
    (hs : s.toSurvey.StandsIn rows) : (s.add e).toSurvey.StandsIn rows := by
  obtain ⟨line, column, hline, hcolumn, hevery⟩ := hn
  have placed := (Node.every_iff.1 hevery).1.1
  have hlineIn : n.lineIn ctx = ((line + n.row : Nat) : Int) := by
    rw [Node.lineIn, hline, Int.natCast_add]
  have hcolumnIn : n.columnIn ctx = ((column + n.column : Nat) : Int) := by
    rw [Node.columnIn, hcolumn, Int.natCast_add]
  have hlt := placed.row hmakes.isRecorded
  have row : Text.HasRow rows (n.lineIn ctx) := ⟨_, hlineIn, hlt⟩
  have add {α : Type} {P : α → Prop} {xs : List α} {x : α} (hxs : ∀ y ∈ xs, P y) (hx : P x) :
      ∀ y ∈ xs ++ [x], P y := List.forall_mem_append.2 ⟨hxs, List.forall_mem_singleton.2 hx⟩
  cases hmakes with
  | use hkind =>
    exact { hs with used := add hs.used ⟨_, _, hlineIn, hcolumnIn, placed.dollar hkind⟩ }
  | subscript =>
    refine { hs with subscripts := add hs.subscripts ?_ }
    rw [Int.add_sub_cancel]
    exact row
  | runExpansion | command => exact { hs with commands := add hs.commands row }
  | injectable => exact { hs with injectable := add hs.injectable row }
  | pair => exact { hs with pairs := add hs.pairs row }
  | input =>
    refine { hs with assigned := add hs.assigned ⟨_, hlineIn, hlt, ?_⟩ }
    rintro value ⟨⟩ p hp name hname
    rw [List.mem_singleton.1 hp] at hname
    cases hname
  | assignment hkind _ _ hparts =>
    refine { hs with assigned := add hs.assigned ⟨_, hlineIn, hlt, ?_⟩ }
    rintro value ⟨⟩ p hp name hname
    rcases hparts p hp with ⟨c, rfl⟩ | ⟨m, hm, hvariable, hframe⟩
    · cases hname
    · rw [hvariable] at hname
      exact ⟨frameOf m, m.column, hframe, rfl, (placed.value hkind).below hm name hname⟩

theorem located_upheld (E : Fault → Prop) :
    UpheldByVisits Scope.Means E (Located parse? functions rows) (SitedIn parse? functions rows)
      (RunIn parse? functions rows) where
  child := by
    rintro ctx n c ⟨line, column, hline, hcolumn, hn⟩ hc
    exact ⟨line, column, hline, hcolumn, (Node.every_iff.1 hn).2 c hc⟩
  fault := by
    rintro ctx n fault ⟨line, column, -, -, hn⟩ hlacks
    exact absurd hlacks ((Node.every_iff.1 hn).1.1.complete fault)
  taint := by
    rintro s t u - ⟨hnames, hbodies, ht⟩ hrecords - -
    have hu : u.records.StandsIn rows := hrecords ▸ ht.update t.functions ∅
    have hfunctions := State.functions_eq hrecords
    exact ⟨hfunctions ▸ hnames, hfunctions ▸ hbodies, hu.update u.functions u.tainted⟩
  lookup _ _ hs := ⟨hs.names, hs.bodies, hs.records⟩
  itself _ := .inl rfl
  meaning _ hqualified := Scope.means_of_qualified? hqualified
  record := by
    rintro ctx n s e hn hmakes ⟨hnames, hbodies, hs⟩
    have hfunctions := s.functions_add e
    exact ⟨hfunctions ▸ hnames, hfunctions ▸ hbodies, standsIn_add hn hmakes hs⟩
  script := by
    rintro ctx n script ⟨line, column, hline, hcolumn, hn⟩ ⟨hkind, hshell, hscript⟩
    obtain ⟨-, depth, hembeds⟩ := (Node.every_iff.1 hn).1
    cases depth with
    | zero =>
      rw [hembeds hkind hshell] at hscript
      cases hscript
    | succ depth =>
      obtain ⟨root, hroot, hevery⟩ := hembeds hkind hshell script hscript
      refine ⟨root, hroot, line + n.row, n.scriptColumn column, ?_, ?_, ?_⟩
      · rw [scriptContext, Node.lineIn, hline, Int.natCast_add]
      · simp only [scriptContext, Node.scriptColumn, hcolumn]
        omega
      · exact hevery.imp fun m hm => ⟨hm.1, depth, hm.2⟩
  define := by
    rintro ctx n s name ⟨line, column, -, -, hn⟩ hdefines hs
    have placed := (Node.every_iff.1 hn).1.1
    rcases placed.home with ⟨rfl, rfl⟩ | ⟨hnone, -⟩
    · refine ⟨?_, hs.bodies.define hn name, hs.records.update _ _⟩
      rw [FunctionTable.names_define]
      split
      · exact hs.names
      · exact List.append_subset.2 ⟨hs.names,
          List.cons_subset.2 ⟨placed.named name hdefines, List.nil_subset functions⟩⟩
    · rw [hdefines] at hnone
      cases hnone
  enter _ _ hs := by
    refine ⟨?_, hs.bodies.enter _, hs.records.update _ _⟩
    rw [FunctionTable.names_enter]
    exact hs.names
  body := by
    rintro ctx n s name f ⟨line, column, hline, hcolumn, hn⟩ hcalls hs hf m hm
    have hmem := List.mem_of_find?_eq_some hf
    rcases (Node.every_iff.1 hn).1.1.home with ⟨rfl, rfl⟩ | ⟨-, hunknown⟩
    · exact ⟨0, 0, hline, hcolumn, hs.bodies f hmem m hm⟩
    · have hname : f.name = name := by simpa using List.find?_some hf
      exact absurd (hname ▸ hs.names (List.mem_map_of_mem hmem)) (hunknown name hcalls)

theorem ensures_located {root : Node} (h : root.Every (Sited parse? functions rows 0 0))
    (budget : Nat) :
    Ensures (· = .exhausted) (Located parse? functions rows)
      (visit (follow parse? budget) {} false root) anything := by
  have upheld := @located_upheld parse? functions rows (· = Fault.exhausted)
  have hlocal {jump : Jump → Walk Unit} {ctx : Context} {n : Node}
      (hn : SitedIn parse? functions rows ctx n) (hkind : n.kind = .declarationCommand)
      (hhead : n.children.head?.any (·.kind = .localKeyword) = true) :
      Ensures (· = Fault.exhausted) (Located parse? functions rows)
        (localDeclaration jump ctx n) anything := by
    have hsettled : n.Settled := by
      obtain ⟨line, column, -, -, hevery⟩ := hn
      exact (Node.every_iff.1 hevery).1.1.settled
    exact (located_upheld fun _ => False).withoutTexts.ensures_localDeclaration
      (fun _ _ _ hs => ⟨hs.names, hs.bodies, hs.records⟩) (fun _ _ h => h) (fun _ _ h => h)
      (fun _ h => h.elim) ⟨hn, hsettled ⟨hkind, hhead⟩⟩ hkind
  have jumps (jump : Jump)
      (hjump : Admitted (SitedIn parse? functions rows) (RunIn parse? functions rows) jump) :
      Ensures (· = Fault.exhausted) (Located parse? functions rows) (follow parse? budget jump)
        anything := by
    refine upheld.ensures_follow rfl (fun _ => hlocal) ?_ ?_ ?_ budget jump hjump
    · rintro ctx script root ⟨_, hroot, hsited⟩ hparsed
      rw [hroot] at hparsed
      cases hparsed
      exact hsited
    · rintro ctx script s - - hs
      refine ⟨hs.names, hs.bodies, { hs.records with assigned := fun a ha => ?_ }⟩
      obtain ⟨b, hb, hkept⟩ := mem_unmarkFirst ha
      have hb := hs.records.assigned b hb
      rwa [← hkept.same] at hb
    · rintro ctx script s ⟨root, hroot, -⟩ (hnone | ⟨fault, hfault, hne⟩)
      · rw [hroot] at hnone
        cases hnone
      · exact absurd hfault hne
  exact upheld.ensures_visit jumps ⟨0, 0, rfl, rfl, h⟩ hlocal false

end Walk

/-- A script with a regular tree, in which the command strings are placed, is surveyed, and
what is recorded stands in its rows. -/
theorem Survey.ofScript_standsIn {g : Grammar}
    (hlaid : ∀ text tree, g.tree? text = some tree → tree.Laid 0 text.utf8ByteSize) {text : String}
    {root : Node} (hroot : g.parse? text = some root) {functions : List String} {depth : Nat}
    (hregular : root.Every (Node.Regular functions (Text.rows text.toList)))
    (hembeds : root.Every (Node.Embeds g.parse? functions (Text.rows text.toList) depth 0 0)) :
    ∃ survey, (Survey.ofScript g text).result = .ok survey ∧
      survey.StandsIn (Text.rows text.toList) := by
  have placed : root.Every (Node.Placed functions (Text.rows text.toList) 0 0) := by
    obtain ⟨tree, -, rfl⟩ := Option.map_eq_some_iff.1 hroot
    rw [Tree.bytes_eq_encode] at hregular ⊢
    exact Node.every_placed (hregular.and (tree.resolve_standsIn text.toList))
  have sited : root.Every (Walk.Sited g.parse? functions (Text.rows text.toList) 0 0) :=
    (placed.and hembeds).imp fun m hm => ⟨hm.1, depth, hm.2⟩
  have hends := g.visit_ends hlaid hroot
  have hstart : Walk.Located g.parse? functions (Text.rows text.toList) {} := by
    refine ⟨List.nil_subset functions, fun f hf => absurd hf List.not_mem_nil, ?_⟩
    constructor <;> exact fun x hx => absurd hx List.not_mem_nil
  obtain ⟨hlocated, hresult⟩ := Walk.ensures_located sited (g.budget root.load) {} hstart
  have hexec : (Walk.script g text).exec {} =
      (Walk.visit (Walk.follow g.parse? (g.budget root.load)) {} false root).exec {} := by
    rw [Walk.exec_script, Walk.scriptWithin, hroot]
    rfl
  unfold Survey.ofScript
  rw [hexec]
  rcases hrun : (Walk.visit (Walk.follow g.parse? (g.budget root.load)) {} false root).exec {} with
    ⟨fault | ⟨⟩, s⟩ <;> rw [hrun] at hends hlocated hresult
  · exact absurd (congrArg Except.error hresult) hends
  · exact ⟨s.toSurvey, rfl, hlocated.records⟩

end ShellAudit
