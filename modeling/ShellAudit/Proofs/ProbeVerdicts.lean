-- SUMMARY: A probe judges the first condition with the operand in it, and the others as they are written.
import Mathlib.Data.List.Nodup
import ShellAudit.Proofs.Containment

/-!
# The verdict of a probe

A probe tries conditions one after the other, and its verdict is that one of them tells.
The operand takes the place of the variable in the first condition only. So the verdict
is about the first condition as it is meant and about all others as they are written,
and which condition comes first matters as soon as they mention the variable.
-/

namespace ShellAudit.Probe

/-- The verdict with a shell that answers each script in one way. -/
def verdict (shell : String → Transcript) (conditions : List String) (name : String) : Bool :=
  attack (m := Id) shell conditions name

/-- The condition mentions a variable that is not the operand itself. -/
def Affects (name condition : String) : Prop :=
  name ≠ operand ∧ name.toList <:+: condition.toList

/-- Some condition tells once the operand has taken the place of the variable in it. -/
def Exploitable (shell : String → Transcript) (conditions : List String) (name : String) : Prop :=
  ∃ c ∈ conditions, tells (shell (script (substitute name c))) = true

theorem substitute_eq_self_iff {name condition : String} :
    substitute name condition = condition ↔ ¬Affects name condition := by
  have hoperand : name.toList = operand.toList ↔ name = operand := String.toList_inj
  rw [substitute, ← String.toList_inj, String.toList_ofList, Text.replace_eq_self_iff, hoperand,
    Affects, not_and_or, not_not]

/-! ## Verdicts and trials -/

theorem verdict_iff_trial {shell : String → Transcript} {conditions : List String}
    {name : String} :
    verdict shell conditions name = true ↔
      ∃ t ∈ trials name conditions, tells (shell (script t)) = true := by
  induction conditions generalizing name with
  | nil => simp [verdict, attack, trials]
  | cons c cs ih =>
    have hstep : verdict shell (c :: cs) name =
        if tells (shell (script (substitute name c))) then true else verdict shell cs operand := rfl
    have hrest : verdict shell cs operand = true ↔ ∃ t ∈ cs, tells (shell (script t)) = true := by
      rw [ih, trials_operand]
    rw [hstep, trials, List.exists_mem_cons_iff, ← hrest]
    split <;> simp_all

/-- A shell that prints the tell-tale word for one condition and nothing for all others. -/
def tellingOf (condition text : String) : Transcript :=
  if text = script condition then ⟨"pwned", ""⟩ else silence

theorem tells_tellingOf {condition c : String} :
    tells (tellingOf condition (script c)) = true ↔ c = condition := by
  unfold tellingOf
  split
  · rename_i h
    simp only [script_injective h, iff_true]
    decide
  · rename_i h
    have hsilence : tells silence = false := by decide
    simp only [hsilence, Bool.false_eq_true, false_iff]
    rintro rfl
    exact h rfl

theorem verdict_tellingOf {condition : String} {conditions : List String} {name : String} :
    verdict (tellingOf condition) conditions name = true ↔ condition ∈ trials name conditions := by
  simp only [verdict_iff_trial, tells_tellingOf, exists_eq_right]

/-- Some text of one list tells whenever some text of another does, and conversely, for
every shell, exactly if the lists hold the same texts. -/
theorem tell_alike_iff {ts us : List String} :
    (∀ shell : String → Transcript, (∃ t ∈ ts, tells (shell (script t)) = true) ↔
        ∃ u ∈ us, tells (shell (script u)) = true) ↔
      ∀ t, t ∈ ts ↔ t ∈ us := by
  constructor
  · intro h t
    simpa [tells_tellingOf] using h (tellingOf t)
  · intro h shell
    simp only [h]

/-- The verdict is the one that is meant, for every shell, exactly if the conditions that are
tried are those with the operand in them. -/
theorem verdict_iff_exploitable_iff {conditions : List String} {name : String} :
    (∀ shell, verdict shell conditions name = true ↔ Exploitable shell conditions name) ↔
      ∀ t, t ∈ trials name conditions ↔ t ∈ conditions.map (substitute name) := by
  rw [← tell_alike_iff]
  simp only [verdict_iff_trial, Exploitable, List.mem_map, exists_exists_and_eq_and]

theorem trials_eq_map {conditions : List String} {name : String}
    (h : ∀ c ∈ conditions.tail, ¬Affects name c) :
    trials name conditions = conditions.map (substitute name) := by
  cases conditions with
  | nil => rfl
  | cons c cs =>
    have hsame : cs.map (substitute name) = cs.map id :=
      List.map_congr_left fun d hd => substitute_eq_self_iff.2 (h d hd)
    rw [trials, List.map_cons, hsame, List.map_id]

/-! ## The order of the conditions -/

theorem trials_eq_self {conditions : List String} {name : String}
    (h : ∀ c ∈ conditions, ¬Affects name c) : trials name conditions = conditions := by
  cases conditions with
  | nil => rfl
  | cons c cs => rw [trials, substitute_eq_self_iff.2 (h c List.mem_cons_self)]

/-- Of different conditions the order matters as soon as one of them mentions the variable:
when it comes first, it is not tried as it is written. -/
theorem verdict_perm_iff {conditions : List String} {name : String} (hnodup : conditions.Nodup)
    (hlength : 2 ≤ conditions.length) :
    (∀ shell reordered, conditions.Perm reordered →
        verdict shell reordered name = verdict shell conditions name) ↔
      ∀ c ∈ conditions, ¬Affects name c := by
  constructor
  · intro hverdicts c hc
    have alike {first second : List String} (hfirst : conditions.Perm first)
        (hsecond : conditions.Perm second) (t : String) :
        t ∈ trials name first ↔ t ∈ trials name second := by
      refine tell_alike_iff.1 (fun shell => ?_) t
      rw [← verdict_iff_trial, ← verdict_iff_trial, hverdicts shell first hfirst,
        hverdicts shell second hsecond]
    obtain ⟨d, hd, hdc⟩ : ∃ d ∈ conditions, d ≠ c := by
      refine ((hnodup.ne_singleton_iff c).1 ?_).resolve_left (List.ne_nil_of_mem hc)
      rintro rfl
      exact absurd hlength (by simp)
    have hwritten : c ∈ trials name (d :: conditions.erase d) :=
      List.mem_cons_of_mem _ ((List.mem_erase_of_ne hdc.symm).2 hc)
    have htried : c ∈ trials name (c :: conditions.erase c) :=
      (alike (List.perm_cons_erase hd) (List.perm_cons_erase hc) c).1 hwritten
    rw [trials, List.mem_cons] at htried
    exact substitute_eq_self_iff.1 (htried.resolve_right hnodup.not_mem_erase).symm
  · intro h shell reordered hperm
    have hreordered : ∀ c ∈ reordered, ¬Affects name c := fun c hc => h c (hperm.mem_iff.2 hc)
    rw [Bool.eq_iff_iff, verdict_iff_trial, verdict_iff_trial, trials_eq_self h,
      trials_eq_self hreordered]
    exact tell_alike_iff.2 (fun t => hperm.mem_iff.symm) shell

/-! ## Conditions of a test -/

/-- What is taken out of a test are conditions that mention the variable. -/
theorem mentions_of_extract {line opener name : String} {conditions : List String}
    (h : extract line opener name = .conditions conditions) {c : String} (hc : c ∈ conditions) :
    name.toList <:+: c.toList := by
  simp only [extract] at h
  split at h
  · cases h
  · cases h
    obtain ⟨inner, hinner, rfl⟩ := List.mem_map.1 hc
    have hmentions : Text.contains inner name.toList = true := (List.mem_filter.1 hinner).2
    have hinside : inner <:+: (bracket opener inner).toList :=
      ⟨opener.toList ++ [' '], ' ' :: (closer opener).toList, by simp [toList_bracket]⟩
    exact (Text.contains_iff_infix.1 hmentions).trans hinside

/-- A probe finds something exactly if one of the conditions tells, the first with the operand
in it and the others as they are written. That is what is meant exactly if the same texts are
tried as with the operand in all of them, and so at least where no condition behind the first
mentions the variable. Different conditions may be put in any order exactly if none of them
mentions it, and conditions that are taken out of a test all do. -/
theorem verdict_of_first_substituted (conditions : List String) (name : String) :
    (∀ shell, verdict shell conditions name = true ↔
        ∃ t ∈ trials name conditions, tells (shell (script t)) = true) ∧
      ((∀ shell, verdict shell conditions name = true ↔ Exploitable shell conditions name) ↔
        ∀ t, t ∈ trials name conditions ↔ t ∈ conditions.map (substitute name)) ∧
      ((∀ c ∈ conditions.tail, ¬Affects name c) →
        ∀ shell, verdict shell conditions name = true ↔ Exploitable shell conditions name) ∧
      (conditions.Nodup → 2 ≤ conditions.length →
        ((∀ shell reordered, conditions.Perm reordered →
            verdict shell reordered name = verdict shell conditions name) ↔
          ∀ c ∈ conditions, ¬Affects name c)) ∧
      ∀ line opener, extract line opener name = .conditions conditions →
        ∀ c ∈ conditions, name.toList <:+: c.toList := by
  refine ⟨fun shell => verdict_iff_trial, verdict_iff_exploitable_iff, fun h => ?_,
    verdict_perm_iff, fun line opener h c => mentions_of_extract h⟩
  exact verdict_iff_exploitable_iff.2 fun t => by rw [trials_eq_map h]

/-- The conditions of a test that compares a variable as a text, and then as a number. -/
def comparisons : List String := ["[[  $x = a  ]]", "[[  $x -gt 0  ]]"]

/-- A shell that runs the operand where it is compared as a number finds the second comparison
if it comes first. Behind the other one it is tried as it is written, and missed. -/
theorem second_comparison_missed :
    extract "[[ $x = a && $x -gt 0 ]]" "[[" "x" = .conditions comparisons ∧
      Exploitable (tellingOf "[[  $var -gt 0  ]]") comparisons "x" ∧
      verdict (tellingOf "[[  $var -gt 0  ]]") comparisons "x" = false ∧
      verdict (tellingOf "[[  $var -gt 0  ]]") comparisons.reverse "x" = true := by
  refine ⟨by decide +kernel, ?_, ?_, ?_⟩
  · exact ⟨_, List.mem_cons_of_mem _ List.mem_cons_self, tells_tellingOf.2 (by decide +kernel)⟩
  · rw [← Bool.not_eq_true, verdict_tellingOf]
    decide +kernel
  · rw [verdict_tellingOf]
    decide +kernel

end ShellAudit.Probe
