-- SUMMARY: Which parts of a value carry user input, and how an assignment changes the tainted names.
import ShellAudit.Record

/-!
# Taint

A name is tainted when text that the user controls may be in its variable. The
sources are the positional parameters, some variables of the environment, what
`read` reads, and the output of commands. An assignment taints its name if some
part of the value is a source or a tainted variable, and cleans it otherwise.
-/

namespace ShellAudit

/-- The parameters and variables of the environment that the user controls. -/
def userControlled : List String :=
  ["0", "1", "2", "3", "4", "5", "6", "7", "8", "9", "@", "*",
    "USER", "HOME", "PATH", "SHELL", "TERM", "DISPLAY"]

namespace Part

/-- Whether what the part brings in is an output that the user may shape. Only
`mktemp` is trusted. -/
def isRisky : Part → Bool
  | output command => command.name != "mktemp"
  | _ => true

/-- Whether the part is user input by itself. -/
def isSource : Part → Bool
  | plain name _ => userControlled.contains name
  | braced _ name _ _ => userControlled.contains name
  | p@(output _) => p.isRisky
  | input => true

/-- Whether the part brings in user input through a tainted variable. -/
def readsTaint (tainted : NameSet) : Part → Bool
  | plain name _ => name ∈ tainted
  | braced _ name _ _ => name ∈ tainted
  | p@(output _) => p.isRisky
  | input => true

/-- Whether the part carries user input. -/
def carries (tainted : NameSet) (p : Part) : Bool :=
  p.isSource || p.readsTaint tainted

/-- More tainted names make no part clean. -/
theorem carries_mono {s t : NameSet} (h : s ⊆ t) {p : Part} (hp : p.carries s = true) :
    p.carries t = true := by
  cases p <;> simp_all [carries, readsTaint, isSource]
  all_goals exact hp.imp_right (h _)

end Part

namespace Value

/-- The first part that carries user input. -/
def carrier? (tainted : NameSet) (v : Value) : Option Part :=
  v.parts.find? (·.carries tainted)

end Value

namespace NameSet

/-- The tainted names after `name` has been assigned a value. -/
def assign (tainted : NameSet) (name : String) (value : Value) : NameSet :=
  match value.carrier? tainted with
  | some _ => tainted.insert name
  | none => tainted.erase name

/-- The name that is assigned to is tainted if the value carries user input. -/
theorem mem_assign_self {tainted : NameSet} {name : String} {value : Value} :
    name ∈ tainted.assign name value ↔ ∃ p ∈ value.parts, p.carries tainted = true := by
  rw [← List.find?_isSome]
  unfold assign Value.carrier?
  split
  · rename_i part hpart
    simp [hpart]
  · rename_i hnone
    simp [hnone]

/-- All other names are left as they are. -/
theorem mem_assign_of_ne {tainted : NameSet} {name other : String} {value : Value}
    (h : other ≠ name) : other ∈ tainted.assign name value ↔ other ∈ tainted := by
  unfold assign
  split
  · simp [h]
  · simp [h]

/-- More tainted names before an assignment leave no fewer behind it. -/
theorem assign_mono {s t : NameSet} (h : s ⊆ t) (name : String) (value : Value) :
    s.assign name value ⊆ t.assign name value := by
  intro n hn
  unfold assign at hn ⊢
  cases hs : value.carrier? s with
  | some part =>
    have found : (value.carrier? t).isSome := by
      obtain ⟨hmem, hcarries⟩ := And.intro (List.mem_of_find?_eq_some hs) (List.find?_some hs)
      exact List.find?_isSome.2 ⟨part, hmem, Part.carries_mono h hcarries⟩
    obtain ⟨part', ht⟩ := Option.isSome_iff_exists.1 found
    rw [hs] at hn
    rw [ht]
    exact insert_mono h name n hn
  | none =>
    rw [hs] at hn
    obtain ⟨hmem, hne⟩ := mem_erase.1 hn
    cases ht : value.carrier? t with
    | some part => exact mem_insert.2 (.inl (h n hmem))
    | none => exact mem_erase.2 ⟨h n hmem, hne⟩

end NameSet

end ShellAudit
