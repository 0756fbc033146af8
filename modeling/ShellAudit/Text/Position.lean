-- SUMMARY: Positions that may be negative, and the slices they bound.

/-!
# Signed positions

A recorded column or line may lie before the start of what it points into. A
negative position counts from the end: `-1` is the last element. Reading one
element fails beyond either end, while the bounds of a slice are moved to the
nearest end.
-/

namespace ShellAudit.Text

variable {α : Type}

/-- The element at a signed position. -/
def at? (xs : List α) (i : Int) : Option α :=
  if 0 ≤ i then xs[i.toNat]?
  else if -i ≤ xs.length then xs[(xs.length + i).toNat]?
  else none

/-- The place in a list of `n` elements that a signed bound of a slice means. -/
def bound (n : Nat) (i : Int) : Nat :=
  if 0 ≤ i then min i.toNat n else (n + i).toNat

/-- The elements from `start` up to, and without, `stop`. -/
def slice (xs : List α) (start stop : Int) : List α :=
  (xs.take (bound xs.length stop)).drop (bound xs.length start)

/-- The elements before a signed position. -/
def before (xs : List α) (stop : Int) : List α := xs.take (bound xs.length stop)

/-- The elements from a signed position on. -/
def after (xs : List α) (start : Int) : List α := xs.drop (bound xs.length start)

theorem bound_le (n : Nat) (i : Int) : bound n i ≤ n := by
  unfold bound
  split <;> omega

@[simp] theorem before_append_after (xs : List α) (i : Int) : before xs i ++ after xs i = xs :=
  List.take_append_drop _ xs

/-- A position inside the list reads the element there. -/
theorem at?_ofNat (xs : List α) (i : Nat) : at? xs (i : Int) = xs[i]? := by
  simp [at?]

end ShellAudit.Text
