-- SUMMARY: Trees whose nodes lie in order inside one another, and the room their scripts take.
import Mathlib.Data.String.Basic
import ShellAudit.Proofs.WalkCost

/-!
# Layout

In the tree of a text, a node lies inside its parent and the children of a node
lie one after the other. The script that a command gives to a shell shares the
command's span with the option before it, so it is shorter than the text around
it. Taking quotes off makes it no longer.
-/

namespace ShellAudit

namespace Tree

mutual

/-- The tree lies between two offsets, each node inside its parent and the
children of each node in order, without overlap. -/
def Laid (lo hi : Nat) : Tree → Prop
  | ⟨_, start, stop, children⟩ =>
    lo ≤ start ∧ start ≤ stop ∧ stop ≤ hi ∧ LaidAll start stop children

/-- The trees lie between two offsets, one after the other. -/
def LaidAll (lo hi : Nat) : List Tree → Prop
  | [] => True
  | t :: ts => Laid lo hi t ∧ LaidAll t.stop hi ts

end

theorem laid_iff {lo hi : Nat} {t : Tree} :
    t.Laid lo hi ↔
      lo ≤ t.start ∧ t.start ≤ t.stop ∧ t.stop ≤ hi ∧ LaidAll t.start t.stop t.children := by
  obtain ⟨kind, start, stop, children⟩ := t
  rw [Laid]

/-- A text takes no more room than the span that it is read from. -/
theorem textAt_size {source : List UInt8} {start stop : Nat} {text : String}
    (h : textAt source start stop = some text) : text.utf8ByteSize ≤ stop - start := by
  unfold textAt String.fromUTF8? at h
  split at h
  · cases h
    have : ((source.take stop).drop start).length ≤ stop - start := by
      rw [List.length_drop, List.length_take]
      omega
    exact this
  · cases h

/-! ## The room of arguments -/

/-- The room that some texts take together. -/
def room : List String → Nat
  | [] => 0
  | text :: texts => text.utf8ByteSize + room texts

theorem room_append (texts texts' : List String) :
    room (texts ++ texts') = room texts + room texts' := by
  induction texts with
  | nil => exact (Nat.zero_add _).symm
  | cons text texts ih => rw [List.cons_append, room, room, ih, Nat.add_assoc]

/-- The argument that a node adds to a draft fits into the node's span. -/
theorem room_add (source : List UInt8) (t : Tree) (draft : Walk.Draft) :
    room (draft.add (t.resolve source)).arguments ≤ room draft.arguments + (t.stop - t.start) := by
  obtain ⟨kind, start, stop, children⟩ := t
  unfold Walk.Draft.add
  split
  · exact Nat.le_add_right _ _
  · split
    · simp only [Walk.Draft.extended, room_append, resolve]
      refine Nat.add_le_add_left ?_ _
      cases htext : textAt source start stop with
      | none => exact Nat.zero_le _
      | some text =>
        by_cases hempty : text = ""
        · simp [Option.filter, hempty, room]
        · simpa [Option.filter, hempty, room] using textAt_size htext
    · exact Nat.le_add_right _ _

theorem room_read (source : List UInt8) {lo hi : Nat} {ts : List Tree} (h : LaidAll lo hi ts)
    (hlo : lo ≤ hi) (draft : Walk.Draft) :
    room (draft.read (resolveAll source ts)).arguments ≤ room draft.arguments + (hi - lo) := by
  induction ts generalizing lo draft with
  | nil => exact Nat.le_add_right _ _
  | cons t ts ih =>
    obtain ⟨ht, hts⟩ := h
    obtain ⟨hstart, hspan, hstop, -⟩ := laid_iff.1 ht
    have first := room_add source t draft
    have rest := ih hts hstop (draft.add (t.resolve source))
    change room ((draft.add (t.resolve source)).read (resolveAll source ts)).arguments ≤ _
    omega

/-! ## Scripts inside a tree -/

theorem script_size {source : List UInt8} {t : Tree} {lo hi : Nat} (h : t.Laid lo hi)
    {script : String} (hs : (t.resolve source).script? = some script) :
    script.utf8ByteSize < hi - lo := by
  obtain ⟨kind, start, stop, children⟩ := t
  obtain ⟨hstart, hspan, hstop, hchildren⟩ := laid_iff.1 h
  have hroom := room_read source hchildren hspan {}
  unfold Node.script? at hs
  split at hs
  · simp only [Node.draft, resolve] at hs
    unfold Walk.scriptArgument? at hs
    split at hs
    · rename_i arguments rest hargs
      cases hs
      rw [hargs] at hroom
      -- The option takes room of its own, so the script has less than the command.
      have option : ("-c" : String).utf8ByteSize = 2 := by decide
      simp only [room, option] at hroom
      simp only at hstart hstop
      omega
    · cases hs
  · cases hs

mutual

theorem nests_of_laid (source : List UInt8) {lo hi k : Nat} {t : Tree} (h : t.Laid lo hi)
    (hk : hi - lo ≤ k) : Walk.Nests String.utf8ByteSize k (t.resolve source) := by
  obtain ⟨kind, start, stop, children⟩ := t
  obtain ⟨hstart, hspan, hstop, hchildren⟩ := laid_iff.1 h
  simp only at hstart hspan hstop hchildren
  refine Node.every_iff.2 ⟨fun script hs => ?_, fun c hc => ?_⟩
  · have := script_size h hs
    omega
  · rw [resolve] at hc
    exact nests_of_laidAll source hchildren (by omega) c hc

theorem nests_of_laidAll (source : List UInt8) {lo hi k : Nat} {ts : List Tree}
    (h : LaidAll lo hi ts) (hk : hi - lo ≤ k) :
    ∀ n ∈ resolveAll source ts, Walk.Nests String.utf8ByteSize k n := by
  intro n hn
  cases ts with
  | nil => cases hn
  | cons t ts =>
    obtain ⟨ht, hts⟩ := h
    obtain ⟨hstart, hspan, -, -⟩ := laid_iff.1 ht
    rw [resolveAll, List.mem_cons] at hn
    rcases hn with rfl | hn
    · exact nests_of_laid source ht hk
    · exact nests_of_laidAll source hts (by omega) n hn

end

end Tree

namespace Walk

/-- Taking quotes off a string makes it no longer. -/
theorem unquote_size (script : String) :
    (String.ofList (unquote script.toList)).utf8ByteSize ≤ script.utf8ByteSize := by
  have hsub : (unquote script.toList).Sublist script.toList := by
    unfold unquote
    split
    · exact (List.dropLast_sublist _).trans (List.drop_sublist 1 _)
    · exact List.Sublist.refl _
  calc (String.ofList (unquote script.toList)).utf8ByteSize
      = String.utf8Len (unquote script.toList) := String.utf8ByteSize_ofList _
    _ ≤ String.utf8Len script.toList := String.utf8Len_le_of_sublist hsub
    _ = script.utf8ByteSize := String.utf8Len_toList script

end Walk

end ShellAudit
