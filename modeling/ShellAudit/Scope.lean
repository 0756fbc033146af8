-- SUMMARY: The resolution of a written name to the name it has in scope.
import ShellAudit.NameSet
import ShellAudit.Text.Search

/-!
# Names in scope

A variable that is local to a function is in scope under the function's name, a
dot, and its own name. A written name means the most deeply qualified name in
scope that ends in it, and stands for itself if there is none.
-/

namespace ShellAudit.Scope

/-- How deeply a name is qualified. -/
def depth (name : String) : Nat := name.toList.count '.'

/-- The name without its qualifiers. -/
def baseName (name : String) : String := String.ofList (Text.lastComponent name.toList)

/-- Of two names the more deeply qualified one, the first if they are equal in this. -/
def deeper (best : Option String) (name : String) : Option String :=
  match best with
  | none => some name
  | some b => if depth b < depth name then some name else some b

/-- The qualified name in scope that a written name means. -/
def qualified? (scope : NameSet) (name : String) : Option String :=
  (scope.names.filter fun n => 0 < depth n && baseName n == name).foldl deeper none

/-- What a written name means: a qualified name in scope, or else itself. -/
def meaning (scope : NameSet) (written : String) : String := (qualified? scope written).getD written

/-- The scope after a name has been looked up. A name that means itself is then in it. -/
def learned (scope : NameSet) (written : String) : NameSet :=
  if (qualified? scope written).isSome then scope else scope.insert written

theorem mem_of_foldl_deeper {names : List String} {best : Option String} {name : String}
    (h : names.foldl deeper best = some name) : name ∈ names ∨ best = some name := by
  induction names generalizing best with
  | nil => exact .inr h
  | cons n ns ih =>
    rcases ih h with hns | hbest
    · exact .inl (List.mem_cons_of_mem n hns)
    · cases best with
      | none =>
        cases hbest
        exact .inl List.mem_cons_self
      | some b =>
        simp only [deeper] at hbest
        split at hbest
        · cases hbest
          exact .inl List.mem_cons_self
        · exact .inr hbest

/-- What a written name means, if it is another name, is in scope and has a qualifier. -/
theorem mem_of_qualified? {scope : NameSet} {name qualified : String}
    (h : qualified? scope name = some qualified) :
    qualified ∈ scope ∧ 0 < depth qualified ∧ baseName qualified = name := by
  rcases mem_of_foldl_deeper h with hmem | hnone
  · simp only [List.mem_filter, Bool.and_eq_true, decide_eq_true_eq, beq_iff_eq] at hmem
    exact hmem
  · cases hnone

/-- Where no qualified name in scope ends in it, a written name stands for itself. -/
theorem qualified?_eq_none {scope : NameSet} {name : String}
    (h : ∀ x ∈ scope, 0 < depth x → baseName x ≠ name) : qualified? scope name = none := by
  cases hqualified : qualified? scope name with
  | none => rfl
  | some qualified =>
    obtain ⟨hmem, hdepth, hbase⟩ := mem_of_qualified? hqualified
    exact absurd hbase (h qualified hmem hdepth)

end ShellAudit.Scope
