-- SUMMARY: Syntax trees with byte spans, and syntax nodes with their text and position.
import ShellAudit.Syntax.Kind

/-!
# Syntax trees

A `Tree` is what a grammar gives: kinds and byte spans. A `Node` is the same
tree seen over its source, with the text and the position of every node. Rows
count line feeds and columns count bytes, whatever the characters are.
-/

namespace ShellAudit

/-- A syntax tree over the bytes of a text: each node spans the bytes from
`start` up to `stop`. -/
structure Tree where
  kind : Kind
  start : Nat
  stop : Nat
  children : List Tree
deriving Repr, Inhabited

/-- A syntax node. Its text is missing when its bytes are not whole characters. -/
structure Node where
  kind : Kind
  text : Option String
  row : Nat
  column : Nat
  endColumn : Nat
  children : List Node
deriving Repr, Inhabited

namespace Tree

/-- The bytes of a text. -/
def bytes (source : String) : List UInt8 := source.toUTF8.toList

/-- The number of line feeds before an offset. -/
def rowAt (source : List UInt8) (offset : Nat) : Nat :=
  (source.take offset).count 10

/-- The number of bytes between the last line feed before an offset and the offset. -/
def columnAt (source : List UInt8) (offset : Nat) : Nat :=
  ((source.take offset).reverse.takeWhile (· ≠ 10)).length + (offset - source.length)

/-- The text between two offsets, if it is made of whole characters. -/
def textAt (source : List UInt8) (start stop : Nat) : Option String :=
  String.fromUTF8? ⟨((source.take stop).drop start).toArray⟩

mutual

/-- The tree seen over its source. -/
def resolve (source : List UInt8) : Tree → Node
  | ⟨kind, start, stop, children⟩ =>
    { kind := kind
      text := textAt source start stop
      row := rowAt source start
      column := columnAt source start
      endColumn := columnAt source stop
      children := resolveAll source children }

/-- The trees seen over their source. -/
def resolveAll (source : List UInt8) : List Tree → List Node
  | [] => []
  | t :: ts => resolve source t :: resolveAll source ts

end

end Tree

namespace Node

/-- What a node has whenever all its children have it, every node has. -/
theorem induction {P : Node → Prop} (step : ∀ n : Node, (∀ c ∈ n.children, P c) → P n)
    (n : Node) : P n := by
  refine @Node.rec P (fun ns => ∀ c ∈ ns, P c) ?_ ?_ ?_ n
  · intro kind text row column endColumn children ih
    exact step _ ih
  · intro c hc
    exact absurd hc List.not_mem_nil
  · intro n ns hn hns c hc
    cases hc with
    | head => exact hn
    | tail _ hc => exact hns c hc

mutual

/-- What holds of the node and of all nodes below it. -/
def Every (p : Node → Prop) : Node → Prop
  | node@⟨_, _, _, _, _, children⟩ => p node ∧ EveryOf p children

/-- What holds of the nodes and of all nodes below them. -/
def EveryOf (p : Node → Prop) : List Node → Prop
  | [] => True
  | n :: ns => Every p n ∧ EveryOf p ns

end

mutual

instance decidableEvery (p : Node → Prop) [DecidablePred p] : (n : Node) → Decidable (n.Every p)
  | ⟨_, _, _, _, _, children⟩ => @instDecidableAnd _ _ _ (decidableEveryOf p children)

instance decidableEveryOf (p : Node → Prop) [DecidablePred p] :
    (ns : List Node) → Decidable (EveryOf p ns)
  | [] => .isTrue trivial
  | n :: ns => @instDecidableAnd _ _ (decidableEvery p n) (decidableEveryOf p ns)

end

theorem everyOf_iff {p : Node → Prop} {ns : List Node} : EveryOf p ns ↔ ∀ n ∈ ns, n.Every p := by
  induction ns with
  | nil => simp [EveryOf]
  | cons n ns ih => simp [EveryOf, ih]

theorem every_iff {p : Node → Prop} {n : Node} : n.Every p ↔ p n ∧ ∀ c ∈ n.children, c.Every p := by
  obtain ⟨kind, text, row, column, endColumn, children⟩ := n
  rw [Every, everyOf_iff]

theorem Every.imp {p q : Node → Prop} (h : ∀ n, p n → q n) {n : Node} (hn : n.Every p) :
    n.Every q := by
  induction n using Node.induction with
  | step n ih =>
    rw [every_iff] at hn ⊢
    exact ⟨h n hn.1, fun c hc => ih c hc (hn.2 c hc)⟩

mutual

/-- How often a walk of the node may jump elsewhere, at most. Each child counts
twice, since a value is read once for itself and once for the command around it. -/
def load : Node → Nat
  | ⟨_, _, _, _, _, children⟩ => 2 + 2 * loadAll children

/-- The loads of the nodes together. -/
def loadAll : List Node → Nat
  | [] => 0
  | n :: ns => load n + loadAll ns

end

end Node

end ShellAudit
