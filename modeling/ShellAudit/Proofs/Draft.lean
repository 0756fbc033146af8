-- SUMMARY: What a command's children say about its name and arguments, whatever the walk has seen.
import ShellAudit.Proofs.Composed

/-!
# Drafts of commands

The draft of a command depends on the texts of its children only, not on the
state in which they are read. `Draft.read` gives it as a function of the
children.
-/

namespace ShellAudit

namespace Walk

/-- What every result of a walk satisfies, if there is one. -/
def Returns {α : Type} (walk : Walk α) (p : α → Prop) : Prop :=
  ∀ s a t, walk.exec s = (.ok a, t) → p a

namespace Returns

theorem pure {α : Type} {p : α → Prop} {a : α} (h : p a) : Returns (pure a) p := by
  intro s b t hb
  cases hb
  exact h

theorem bind {α β : Type} {walk : Walk α} {next : α → Walk β} {p : α → Prop} {q : β → Prop}
    (h : Returns walk p) (hnext : ∀ a, p a → Returns (next a) q) : Returns (walk >>= next) q := by
  intro s b t hb
  rw [exec_bind] at hb
  rcases hs : walk.exec s with ⟨_ | a, s'⟩ <;> simp only [hs] at hb
  · cases hb
  · exact hnext a (h s a s' hs) s' b t hb

theorem any {α : Type} (walk : Walk α) : Returns walk fun _ => True := fun _ _ _ _ => trivial

theorem text (node : Node) : Returns (text node) fun written => node.text = some written := by
  intro s written t h
  unfold Walk.text at h
  split at h
  · rename_i text htext
    cases h
    exact htext
  · cases h

end Returns

namespace Draft

/-- The draft with the name that a node gives. -/
def named (draft : Draft) (node : Node) : Draft :=
  let written := (node.children.head?.getD node).text.getD ""
  { draft with
    name := String.ofList (Text.trim decoratesName written.toList)
    column := node.column }

/-- The draft with the argument that a node is. -/
def extended (draft : Draft) (node : Node) : Draft :=
  { draft with arguments := draft.arguments ++ (node.text.filter (· ≠ "")).toList }

/-- The draft with what one child of a command adds to it. -/
def add (draft : Draft) (node : Node) : Draft :=
  if node.kind = .commandName then draft.named node
  else if node.kind.isArgument then draft.extended node
  else draft

/-- The draft with what the children of a command add to it. -/
def read (draft : Draft) (nodes : List Node) : Draft := nodes.foldl add draft

end Draft

theorem draftName_returns (draft : Draft) (node : Node) :
    Returns (draftName draft node) (· = draft.named node) := by
  unfold Walk.draftName
  refine .bind (.text _) fun written hwritten => .pure ?_
  rw [Draft.named, hwritten]
  rfl

theorem draftArgument_returns (draft : Draft) (node : Node) :
    Returns (draftArgument draft node) (· = draft.extended node) := by
  unfold Walk.draftArgument
  refine .bind (.text node) fun written hwritten => ?_
  rw [Draft.extended, hwritten]
  split
  · rename_i h
    exact .pure (by simp [Option.filter, h])
  · rename_i h
    exact .pure (by simp [Option.filter, h])

section

variable {jump : Jump → Walk Unit} {ctx : Context} {draft : Draft} {n : Node} {ns : List Node}

theorem draftChildren_cons_assignment (h : n.kind = .variableAssignment) :
    draftChildren jump ctx draft (n :: ns) = (do
      let written ← text n
      let name ← resolve (String.ofList (Text.beforeEquals written.toList))
      let value ← lastValue jump ctx n.children
      recordAssignment
        { name := name
          value := some value
          line := n.lineIn ctx
          column := n.columnIn ctx
          forCommand := true }
      assignTaint (commandKey name n.row) value
      draftChildren jump ctx draft ns) := by
  obtain ⟨kind, written, row, column, endColumn, children⟩ := n
  obtain rfl : kind = .variableAssignment := h
  rw [draftChildren]

theorem draftChildren_cons_name (h : n.kind = .commandName) :
    draftChildren jump ctx draft (n :: ns) = (do
      let draft ← draftName draft n
      draftChildren jump ctx draft ns) := by
  obtain ⟨kind, written, row, column, endColumn, children⟩ := n
  obtain rfl : kind = .commandName := h
  rw [draftChildren]

theorem draftChildren_cons_other (hassign : n.kind ≠ .variableAssignment)
    (hname : n.kind ≠ .commandName) :
    draftChildren jump ctx draft (n :: ns) =
      if n.kind.isArgument then do
        let draft ← draftArgument draft n
        draftChildren jump ctx draft ns
      else draftChildren jump ctx draft ns := by
  obtain ⟨kind, written, row, column, endColumn, children⟩ := n
  rw [draftChildren]
  · exact fun _ h _ => hassign h
  · exact fun _ h _ => hname h

end

/-- Reading the children of a command gives the draft that they say. -/
theorem draftChildren_returns (jump : Jump → Walk Unit) (ctx : Context) (draft : Draft)
    (nodes : List Node) : Returns (draftChildren jump ctx draft nodes) (· = draft.read nodes) := by
  induction nodes generalizing draft with
  | nil => exact .pure rfl
  | cons n ns ih =>
    rw [Draft.read, List.foldl_cons, Draft.add]
    by_cases hassign : n.kind = .variableAssignment
    · have hskip : n.kind ≠ .commandName ∧ n.kind.isArgument = false := by
        simp [hassign, Kind.isArgument]
      rw [draftChildren_cons_assignment hassign, if_neg hskip.1, hskip.2]
      exact .bind (.any _) fun _ _ => .bind (.any _) fun _ _ => .bind (.any _) fun _ _ =>
        .bind (.any _) fun _ _ => .bind (.any _) fun _ _ => ih draft
    · by_cases hname : n.kind = .commandName
      · rw [draftChildren_cons_name hname, if_pos hname]
        refine .bind (draftName_returns draft n) fun named hnamed => ?_
        rw [← hnamed]
        exact ih named
      · rw [draftChildren_cons_other hassign hname, if_neg hname]
        split
        · refine .bind (draftArgument_returns draft n) fun extended hextended => ?_
          rw [← hextended]
          exact ih extended
        · exact ih draft

end Walk

/-- The draft of a command. -/
def Node.draft (node : Node) : Walk.Draft := Walk.Draft.read {} node.children

/-- The text that a command tells a shell to run, if it is one that does. -/
def Node.script? (node : Node) : Option String :=
  if node.kind = .command then Walk.scriptArgument? node.draft.arguments else none

end ShellAudit
