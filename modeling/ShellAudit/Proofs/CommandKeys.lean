-- SUMMARY: The taint of an assignment before a command, kept by its row and looked up by its line.
import ShellAudit.Check.Injection
import ShellAudit.Proofs.Spelling
import ShellAudit.Proofs.TaintSources

/-!
# Keys of commands

An assignment before a command concerns this command only, so its taint is kept under a key made
of the name and a line. The walk makes the key from the row of the assignment in the text that
it stands in, and the checks make it from the line of the command in the script. Outside command
strings, rows are lines. A command string counts its rows anew from the line of the command that
runs it, so there the checks look for a key that was not stored, unless this line is the first.
-/

namespace ShellAudit

namespace Walk

/-! ## Keys -/

theorem toList_commandKey (name : String) (line : Int) :
    (commandKey name line).toList = name.toList ++ "_cmd_ctx_".toList ++ line.repr.toList := by
  rw [commandKey, String.toList_append, String.toList_append]
  rfl

theorem isDigit_of_mem_repr {n : Nat} {c : Char} (h : c ∈ n.repr.toList) : c.isDigit = true := by
  rw [Nat.toList_repr] at h
  exact Nat.isDigit_of_mem_toDigits (by decide) (by decide) h

theorem underscore_not_mem_repr (line : Int) : '_' ∉ line.repr.toList := by
  rw [Int.repr_eq_if]
  split
  · exact fun hmem => absurd (isDigit_of_mem_repr hmem) (by decide)
  · rw [String.toList_append]
    intro hmem
    rcases List.mem_append.1 hmem with hsign | hdigit
    · exact absurd hsign (by decide)
    · exact absurd (isDigit_of_mem_repr hdigit) (by decide)

theorem line_eq_of_repr_eq {line row : Int} (h : line.repr = row.repr) : line = row := by
  have number {m n : Nat} (h : m.repr = n.repr) : m = n := by
    have hdigits := congrArg (Nat.ofDigitChars 10 ·.toList 0) h
    simpa [Nat.toList_repr] using hdigits
  have unsigned (m n : Nat) : m.repr ≠ "-" ++ n.repr := by
    intro h
    have hsign : '-' ∈ m.repr.toList := by simp [h]
    exact absurd (isDigit_of_mem_repr hsign) (by decide)
  rw [Int.repr_eq_if, Int.repr_eq_if] at h
  split at h <;> split at h
  · have := number h
    omega
  · exact absurd h (unsigned _ _)
  · exact absurd h.symm (unsigned _ _)
  · have := number ((String.append_right_inj "-").1 h)
    omega

/-- A key tells the name and the line that it is made of. -/
theorem commandKey_inj {name other : String} {line row : Int} :
    commandKey name line = commandKey other row ↔ name = other ∧ line = row := by
  constructor
  · intro hkeys
    -- The number is what stands behind the last underscore.
    have hnumber (name : String) (line : Int) :
        (commandKey name line).toList.reverse.takeWhile (· ≠ '_') = line.repr.toList.reverse := by
      have hfree : ∀ c ∈ line.repr.toList.reverse, decide (c ≠ '_') = true := fun c hc =>
        decide_eq_true fun heq => underscore_not_mem_repr line (heq ▸ List.mem_reverse.1 hc)
      rw [toList_commandKey, List.append_assoc, List.reverse_append, List.reverse_append,
        List.append_assoc, List.takeWhile_append_of_pos hfree]
      exact List.append_nil _
    have hline : line = row := by
      have hreverse := (hnumber name line).symm.trans (hkeys ▸ hnumber other row)
      exact line_eq_of_repr_eq (String.toList_inj.1 (List.reverse_inj.1 hreverse))
    subst hline
    have hlist := congrArg String.toList hkeys
    rw [toList_commandKey, toList_commandKey, List.append_left_inj, List.append_left_inj] at hlist
    exact ⟨String.toList_inj.1 hlist, rfl⟩
  · rintro ⟨rfl, rfl⟩
    rfl

/-! ## Storing -/

/-- Reads an assignment before a command: the name that it is recorded under, and the value. -/
def readPreceding (jump : Jump → Walk Unit) (ctx : Context) (c : Node) : Walk (String × Value) := do
  let written ← text c
  let name ← resolve (String.ofList (Text.beforeEquals written.toList))
  let value ← lastValue jump ctx c.children
  return (name, value)

/-- The record of an assignment before a command. -/
def preceding (ctx : Context) (c : Node) (name : String) (value : Value) : Assignment :=
  { name := name
    value := some value
    line := c.lineIn ctx
    column := c.columnIn ctx
    forCommand := true }

theorem draftChildren_cons_preceding {jump : Jump → Walk Unit} {ctx : Context} {c : Node}
    (hkind : c.kind = .variableAssignment) (draft : Draft) (rest : List Node) :
    draftChildren jump ctx draft (c :: rest) = (do
      let read ← readPreceding jump ctx c
      recordAssignment (preceding ctx c read.1 read.2)
      assignTaint (commandKey read.1 c.row) read.2
      draftChildren jump ctx draft rest) := by
  rw [draftChildren_cons_assignment hkind]
  simp only [readPreceding, preceding, bind_assoc, pure_bind]

/-- Once an assignment before a command is read, it is recorded with its line, and its taint is
kept by its row. -/
theorem exec_draftChildren_preceding {jump : Jump → Walk Unit} {ctx : Context} {c : Node}
    (hkind : c.kind = .variableAssignment) {s u : State} {name : String} {value : Value}
    (hread : (readPreceding jump ctx c).exec s = (.ok (name, value), u)) (draft : Draft)
    (rest : List Node) :
    ∃ notes, (draftChildren jump ctx draft (c :: rest)).exec s =
      (draftChildren jump ctx draft rest).exec
        { u with
          assigned := u.assigned ++ [preceding ctx c name value]
          tainted := u.tainted.assign (commandKey name c.row) value
          notes := notes } := by
  rw [draftChildren_cons_preceding hkind, exec_bind, hread]
  exact ⟨_, rfl⟩

/-- The positions of a text count from the line of the command that runs it, and those of the
script and the functions in it from the first line. -/
theorem Comes.line {parse? : String → Option Node} {known : FunctionTable} {start ctx : Context}
    {root n : Node} {jumps : Nat} (h : Comes parse? known start root jumps ctx n) :
    ctx.line = start.line ∨ ∃ outer m script, Reached parse? known start root outer m ∧
      m.Runs script ∧ ctx.line = m.lineIn outer := by
  induction h with
  | root => exact .inl rfl
  | child _ _ ih => exact ih
  | text hn hruns _ _ => exact .inr ⟨_, _, _, ⟨_, hn⟩, hruns, rfl⟩
  | known _ _ _ _ ih => exact ih
  | defined _ _ _ _ _ ih => exact ih

end Walk

/-! ## Looking up -/

theorem Check.taintKey_of_mem {assigned : List Assignment} {a : Assignment} (ha : a ∈ assigned)
    (hmark : a.forCommand = true) {c : Command} (hline : c.line = a.line) :
    taintKey assigned c a.name = Walk.commandKey a.name a.line := by
  have hassigned : isAssignedFor assigned c a.name = true :=
    List.any_eq_true.2 ⟨a, ha, by simp [hmark, hline]⟩
  rw [taintKey, if_pos hassigned, hline]

/-- The verdict on an assignment before a command is stored by its row in its own text, that is by
its line less the line that the text counts from, and no other name is changed. For a command in
the line of the assignment, the checks look up the stored key only if the text counts from the
first line; a text that is run counts from the line of the command that runs it. At the end of
a walk, a name that is looked up for a command is tainted only if it is assigned before a
command in a row with the number of the line, or if some variable has the key as its name. -/
theorem preceding_taint_kept_by_row {g : Grammar} {text : String} {root : Node}
    (hroot : g.parse? text = some root) :
    let reached := Walk.Reached g.parse? [] {} root
    let survey := ((Walk.script g text).exec {}).2.toSurvey
    (∀ ctx n, reached ctx n →
      (ctx.line = 0 ∨ ∃ outer m script, reached outer m ∧ m.Runs script ∧
        ctx.line = m.lineIn outer) ∧
      ∀ c ∈ n.children, c.kind = .variableAssignment →
        ∀ (jump : Walk.Jump → Walk Unit) (draft : Walk.Draft) (rest : List Node) (s u : Walk.State)
          (name : String) (value : Value),
          (Walk.readPreceding jump ctx c).exec s = (.ok (name, value), u) →
          let a := Walk.preceding ctx c name value
          let stored := Walk.commandKey name (a.line - ctx.line)
          ∃ v : Walk.State, (Walk.draftChildren jump ctx draft (c :: rest)).exec s =
              (Walk.draftChildren jump ctx draft rest).exec v ∧
            v.assigned = u.assigned ++ [a] ∧
            (stored ∈ v.tainted ↔ ∃ p ∈ value.parts, p.carries u.tainted = true) ∧
            (∀ key, key ≠ stored → (key ∈ v.tainted ↔ key ∈ u.tainted)) ∧
            ∀ (assigned : List Assignment) (d : Command), a ∈ assigned → d.line = a.line →
              (Check.taintKey assigned d name = stored ↔ ctx.line = 0)) ∧
    ∀ (d : Command) (x : String), Check.isAssignedFor survey.assigned d x = true →
      Check.taintKey survey.assigned d x ∈ survey.tainted →
        ∃ ctx n, reached ctx n ∧
          (n.kind = .command ∧ (∃ c ∈ n.children, Walk.Prefixes c x ∧ (c.row : Int) = d.line) ∨
            Walk.AssignsTo ctx n (Walk.commandKey x d.line)) := by
  intro reached survey
  refine ⟨fun ctx n hn => ⟨?_, fun c hc hkind jump draft rest s u name value hread => ?_⟩,
    fun d x hassigned htainted => ?_⟩
  · obtain ⟨jumps, hcomes⟩ := hn
    exact hcomes.line
  · intro a stored
    have hrow : a.line - ctx.line = (c.row : Int) := by
      show ctx.line + c.row - ctx.line = c.row
      omega
    have hstored : stored = Walk.commandKey name c.row := congrArg (Walk.commandKey name) hrow
    obtain ⟨notes, hexec⟩ := Walk.exec_draftChildren_preceding hkind hread draft rest
    refine ⟨_, hexec, rfl, ?_, fun key hkey => ?_, fun assigned d ha hline => ?_⟩
    · rw [hstored]
      exact NameSet.mem_assign_self
    · exact NameSet.mem_assign_of_ne (hstored ▸ hkey)
    · have hlookup : Check.taintKey assigned d name = Walk.commandKey name a.line :=
        Check.taintKey_of_mem ha rfl hline
      rw [hlookup, Walk.commandKey_inj]
      constructor
      · intro hkeys
        omega
      · intro hfirst
        exact ⟨rfl, by omega⟩
  · have hkey : Check.taintKey survey.assigned d x = Walk.commandKey x d.line := by
      rw [Check.taintKey, if_pos hassigned]
    rw [hkey] at htainted
    have hrun : survey = ((Walk.visit (Walk.follow g.parse? (g.budget root.load)) {} false
        root).exec {}).2.toSurvey := congrArg (·.2.toSurvey) (Walk.exec_script_of_parse hroot)
    rw [hrun] at htainted
    rcases Walk.visit_tainted_hasSource _ _ htainted with hbegun | ⟨ctx, n, hn, htaints⟩
    · exact absurd hbegun (NameSet.not_mem_empty _)
    · refine ⟨ctx, n, hn, ?_⟩
      generalize hname : Walk.commandKey x d.line = key at htaints
      cases htaints with
      | written hassigns => exact .inr hassigns
      | forCommand hkind hc hprefixes =>
        obtain ⟨rfl, hrow⟩ := Walk.commandKey_inj.1 hname
        exact .inl ⟨hkind, _, hc, hprefixes, hrow.symm⟩

/-- The command `x=$1 eval $x`. -/
def evalTree : Tree :=
  ⟨.command, 0, 12,
    [Walk.assignmentTree (Walk.variableTree 0 1) (Walk.expansionTree 2 1),
      ⟨.commandName, 5, 9, [⟨.word, 5, 9, []⟩]⟩, Walk.expansionTree 10 1]⟩

def evalText : String := "x=$1 eval $x"

def evalProgram : Tree := ⟨.program, 0, 12, [evalTree]⟩

/-- A shell in the second line that is told to run this command. -/
def shellTree : Tree :=
  ⟨.command, 2, 24,
    [⟨.commandName, 2, 6, [⟨.word, 2, 6, []⟩]⟩, ⟨.word, 7, 9, []⟩, ⟨.rawString, 10, 24, []⟩]⟩

def shellText : String := ":\nbash -c 'x=$1 eval $x'"

def shellProgram : Tree :=
  ⟨.program, 0, 24, [⟨.command, 0, 1, [⟨.commandName, 0, 1, [⟨.word, 0, 1, []⟩]⟩]⟩, shellTree]⟩

def evalTable : Grammar := ⟨[(evalText, some evalProgram), (shellText, some shellProgram)]⟩

/-- In the second line, the verdict is stored for the first one. -/
theorem preceding_taint_kept_by_row_nested :
    let root := shellProgram.resolve (Tree.bytes shellText)
    let n := evalTree.resolve (Tree.bytes evalText)
    Walk.Reached evalTable.parse? [] {} root ⟨"", 1, 9⟩ n ∧
      ∃ c ∈ n.children, c.text = some "x=$1" ∧ c.lineIn ⟨"", 1, 9⟩ = 1 ∧
      ∃ v : Walk.State, "x_cmd_ctx_0" ∈ v.tainted ∧ "x_cmd_ctx_1" ∉ v.tainted ∧
        ∀ d : Command, d.line = 1 → Check.taintKey v.assigned d "x" ≠ "x_cmd_ctx_0" := by
  intro root n
  have hroot : evalTable.parse? shellText = some root := rfl
  have hinner : evalTable.parse? (String.ofList (Walk.unquote "'x=$1 eval $x'".toList)) =
      some (evalProgram.resolve (Tree.bytes evalText)) := by
    have htext : String.ofList (Walk.unquote "'x=$1 eval $x'".toList) = evalText := by
      decide +kernel
    rw [htext]
    rfl
  have hruns : (shellTree.resolve (Tree.bytes shellText)).Runs "'x=$1 eval $x'" :=
    ⟨rfl, by decide +kernel, by decide +kernel⟩
  have hshell : Walk.Comes evalTable.parse? [] {} root 0 {}
      (shellTree.resolve (Tree.bytes shellText)) :=
    .child .root (List.mem_cons_of_mem _ List.mem_cons_self)
  have hctx : Walk.scriptContext {} (shellTree.resolve (Tree.bytes shellText)) = ⟨"", 1, 9⟩ := by
    decide +kernel
  have hreached : Walk.Reached evalTable.parse? [] {} root ⟨"", 1, 9⟩ n := by
    rw [← hctx]
    exact ⟨1, .child (.text hshell hruns hinner) List.mem_cons_self⟩
  obtain ⟨hkeys, -⟩ := preceding_taint_kept_by_row hroot
  let jump := Walk.follow (fun _ => none) 0
  let c := (Walk.assignmentTree (Walk.variableTree 0 1) (Walk.expansionTree 2 1)).resolve
    (Tree.bytes evalText)
  have hread : (Walk.readPreceding jump ⟨"", 1, 9⟩ c).exec {} =
      (.ok ("x", ⟨"$1", [.plain "1" (some ⟨2, 4⟩)]⟩),
        ((Walk.readPreceding jump ⟨"", 1, 9⟩ c).exec {}).2) :=
    Prod.ext (by decide +kernel) rfl
  obtain ⟨v, -, hassigned, hstored, hothers, hlookup⟩ :=
    (hkeys _ n hreached).2 c List.mem_cons_self rfl jump {} [] {} _ _ _ hread
  have hkey : Walk.commandKey "x" (c.lineIn ⟨"", 1, 9⟩ - 1) = "x_cmd_ctx_0" := by decide +kernel
  have hfirst : "x_cmd_ctx_0" ∈ v.tainted :=
    hkey ▸ hstored.2 ⟨_, List.mem_cons_self, by decide +kernel⟩
  have hsecond : "x_cmd_ctx_1" ∉ v.tainted := fun h =>
    absurd ((hothers "x_cmd_ctx_1" (by decide +kernel)).1 h) (by decide +kernel)
  refine ⟨hreached, c, List.mem_cons_self, by decide +kernel, by decide +kernel, v, hfirst, hsecond,
    fun d hline hlooked => ?_⟩
  have hmem := hassigned ▸ List.mem_append_right _ List.mem_cons_self
  have hsame : d.line = c.lineIn ⟨"", 1, 9⟩ := hline.trans (by decide +kernel)
  exact absurd ((hlookup v.assigned d hmem hsame).1 (hlooked.trans hkey.symm)) (by decide)

/-- The survey of a text with the table above. -/
def evalSurvey (text : String) : Survey := ((Walk.script evalTable text).exec {}).2.toSurvey

/-- The commands of a text, each with the number of findings for what it evaluates. -/
def evalVerdicts (text : String) : List (String × Except Fault Nat) :=
  let survey := evalSurvey text
  survey.commands.map fun c =>
    (c.name, (Check.evaluatesInput (.ofText text) survey.assigned survey.tainted c).map List.length)

/-- The same command is reported in a script, and not in a string that the second line runs. The
assignment is recorded in that line, and its taint is kept for the first one. -/
theorem nested_eval_unseen :
    evalVerdicts evalText = [("eval", .ok 1)] ∧
      evalVerdicts shellText = [(":", .ok 0), ("bash", .ok 0), ("eval", .ok 0)] ∧
      (evalSurvey shellText).assigned.map (fun a => (a.name, a.line, a.forCommand)) =
        [("x", 1, true)] ∧
      (evalSurvey shellText).tainted.names = ["x_cmd_ctx_0"] := by
  decide +kernel

end ShellAudit
