-- SUMMARY: Finite sets of names, in the order in which the names were added.

/-!
# Sets of names

A set of names remembers the order in which its names were added, and holds
each of them once. Everything is said through membership.
-/

namespace ShellAudit

/-- A set of names in the order of their arrival. -/
structure NameSet where
  names : List String
  nodup : names.Nodup := by decide
deriving DecidableEq

namespace NameSet

instance : Membership String NameSet := ⟨fun s n => n ∈ s.names⟩

instance (n : String) (s : NameSet) : Decidable (n ∈ s) :=
  inferInstanceAs (Decidable (n ∈ s.names))

theorem mem_def {n : String} {s : NameSet} : n ∈ s ↔ n ∈ s.names := Iff.rfl

instance : HasSubset NameSet := ⟨fun s t => ∀ n, n ∈ s → n ∈ t⟩

/-- The set without names. -/
def empty : NameSet := ⟨[], List.nodup_nil⟩

instance : EmptyCollection NameSet := ⟨empty⟩
instance : Inhabited NameSet := ⟨empty⟩

/-- The set with `n` in it. -/
def insert (s : NameSet) (n : String) : NameSet :=
  if h : n ∈ s.names then s
  else ⟨s.names ++ [n], by
    rw [List.nodup_append]
    refine ⟨s.nodup, by simp, ?_⟩
    intro a ha b hb
    rw [List.mem_singleton] at hb
    exact fun hab => h (hb ▸ hab ▸ ha)⟩

/-- The set without `n` in it. -/
def erase (s : NameSet) (n : String) : NameSet :=
  ⟨s.names.filter (· ≠ n), s.nodup.filter _⟩

/-- The set with all of `ns` in it. -/
def insertAll (s : NameSet) (ns : List String) : NameSet := ns.foldl insert s

/-- The names that are in one of two sets. -/
def union (s t : NameSet) : NameSet := s.insertAll t.names

/-- The set of the names in a list. -/
def ofList (ns : List String) : NameSet := empty.insertAll ns

/-- The names in ascending order. -/
def sorted (s : NameSet) : List String := s.names.mergeSort fun a b => decide (a ≤ b)

/-! ## Membership -/

@[simp] theorem not_mem_empty (n : String) : n ∉ (∅ : NameSet) := List.not_mem_nil

@[simp] theorem mem_insert {s : NameSet} {n m : String} : m ∈ s.insert n ↔ m ∈ s ∨ m = n := by
  unfold insert
  split
  · rename_i h
    exact ⟨Or.inl, fun hm => hm.elim id fun e => e ▸ h⟩
  · simp [mem_def]

@[simp] theorem mem_erase {s : NameSet} {n m : String} : m ∈ s.erase n ↔ m ∈ s ∧ m ≠ n := by
  simp [mem_def, erase]

@[simp] theorem mem_insertAll {s : NameSet} {ns : List String} {m : String} :
    m ∈ s.insertAll ns ↔ m ∈ s ∨ m ∈ ns := by
  induction ns generalizing s with
  | nil => simp [insertAll]
  | cons n ns ih =>
    have step : s.insertAll (n :: ns) = (s.insert n).insertAll ns := rfl
    rw [step, ih, mem_insert, List.mem_cons, or_assoc]

@[simp] theorem mem_union {s t : NameSet} {m : String} : m ∈ s.union t ↔ m ∈ s ∨ m ∈ t := by
  rw [union, mem_insertAll, mem_def (s := t)]

/-! ## Inclusion -/

theorem Subset.refl (s : NameSet) : s ⊆ s := fun _ h => h

theorem Subset.trans {s t u : NameSet} (hst : s ⊆ t) (htu : t ⊆ u) : s ⊆ u :=
  fun n h => htu n (hst n h)

theorem subset_union_left (s t : NameSet) : s ⊆ s.union t := fun _ h => mem_union.2 (.inl h)

theorem subset_union_right (s t : NameSet) : t ⊆ s.union t := fun _ h => mem_union.2 (.inr h)

theorem union_mono {s s' t t' : NameSet} (hs : s ⊆ s') (ht : t ⊆ t') : s.union t ⊆ s'.union t' :=
  fun n h => mem_union.2 ((mem_union.1 h).imp (hs n) (ht n))

theorem insert_mono {s t : NameSet} (h : s ⊆ t) (name : String) : s.insert name ⊆ t.insert name :=
  fun n hn => mem_insert.2 ((mem_insert.1 hn).imp_left (h n))

end NameSet

end ShellAudit
