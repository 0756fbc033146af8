-- SUMMARY: The scan for simple variables finds every one of them, and none hides another.
import Mathlib.Data.List.TakeWhile
import ShellAudit.Walk.Run

/-!
# Every simple variable is found

The scan for simple variables goes on behind each variable that it finds. Whether one stands at a
place can be said of that place alone: there is a dollar sign, and behind it, or behind an opening
brace, a name starts. What the scan passes over holds no dollar sign, so no place where a variable
stands is passed over, and the scan records what each place asks for by itself.
-/

namespace ShellAudit.Walk

/-! ## Places of variables -/

/-- Where the name of a variable at a place starts: behind the dollar sign, or behind the opening
brace that follows it. -/
def nameStart (s : List Char) (i : Nat) : Nat := if s[i + 1]? = some '\x7b' then i + 2 else i + 1

/-- Whether a variable stands at a place. -/
def opensAt (s : List Char) (i : Nat) : Bool :=
  s[i]? = some '$' && s[nameStart s i]?.any startsName

/-- The name of the variable at a place: the longest run of name characters. -/
def nameAt (s : List Char) (i : Nat) : List Char := (s.drop (nameStart s i)).takeWhile continuesName

/-- The use of the variable at a place of a text whose first character has index `column`. -/
def useAt (line : Int) (column : Nat) (s : List Char) (i : Nat) : Use :=
  { name := String.ofList ('$' :: nameAt s i), line := line, column := (column + i : Nat) }

/-- The uses of the variables at all places of a text, in the order of the places. -/
def usesIn (line : Int) (column : Nat) (s : List Char) : List Use :=
  ((List.range s.length).filter (opensAt s)).map (useAt line column s)

section

variable (c : Char) (s : List Char) (i : Nat)

theorem nameStart_cons_succ : nameStart (c :: s) (i + 1) = nameStart s i + 1 := by
  simp only [nameStart, List.getElem?_cons_succ]
  split <;> rfl

theorem opensAt_cons_succ : opensAt (c :: s) (i + 1) = opensAt s i := by
  simp only [opensAt, nameStart_cons_succ, List.getElem?_cons_succ]

theorem useAt_cons_succ (line : Int) (column : Nat) :
    useAt line column (c :: s) (i + 1) = useAt line (column + 1) s i := by
  have hcolumn : column + (i + 1) = column + 1 + i := by omega
  simp only [useAt, nameAt, nameStart_cons_succ, List.drop_succ_cons, hcolumn]

end

/-- What stands at a place does not depend on what stands before it. -/
theorem usesIn_cons (line : Int) (column : Nat) (c : Char) (s : List Char) :
    usesIn line column (c :: s) =
      (if opensAt (c :: s) 0 then [useAt line column (c :: s) 0] else [])
        ++ usesIn line (column + 1) s := by
  have hrest : (((List.range s.length).map Nat.succ).filter (opensAt (c :: s))).map
      (useAt line column (c :: s)) = usesIn line (column + 1) s := by
    rw [List.filter_map, List.map_map, usesIn]
    exact congrArg₂ _ (funext fun i => useAt_cons_succ c s i line column)
      (congrArg₂ _ (funext fun i => opensAt_cons_succ c s i) rfl)
  rw [← hrest, usesIn, List.length_cons, List.range_succ_eq_map, List.filter_cons]
  split <;> rfl

/-! ## The variable at the start of a text -/

theorem continuesName_of_startsName {c : Char} (h : startsName c = true) :
    continuesName c = true := by
  simp only [startsName, continuesName, Char.isAlphanum, Bool.or_eq_true] at h ⊢
  exact h.imp_left .inl

theorem nameAt_ne_nil {s : List Char} {i : Nat} (h : opensAt s i = true) : nameAt s i ≠ [] := by
  obtain ⟨c, hc, hname⟩ := (Option.any_eq_true _ _).1 (Bool.and_eq_true_iff.1 h).2
  rw [← List.head?_drop] at hc
  obtain ⟨rest, hrest⟩ := List.head?_eq_some_iff.1 hc
  rw [nameAt, hrest, List.takeWhile_cons, continuesName_of_startsName hname]
  exact List.cons_ne_nil _ _

theorem leadingName_eq (s : List Char) :
    leadingName s = if opensAt ('$' :: s) 0 then nameAt ('$' :: s) 0 else [] := by
  rcases s with _ | ⟨c, s⟩
  · simp [leadingName, opensAt, nameStart]
  · by_cases hc : c = '\x7b'
    · subst hc
      rcases s with _ | ⟨d, s⟩ <;> simp [leadingName, opensAt, nameStart, nameAt]
    · simp [leadingName, opensAt, nameStart, nameAt, hc]

/-- The scan finds a variable at the start of a text exactly if one stands there. -/
theorem opensAt_zero_iff {c : Char} {s : List Char} :
    opensAt (c :: s) 0 = true ↔ c = '$' ∧ leadingName s ≠ [] := by
  constructor
  · intro h
    obtain rfl : c = '$' := by simpa [opensAt] using (Bool.and_eq_true_iff.1 h).1
    rw [leadingName_eq, if_pos h]
    exact ⟨rfl, nameAt_ne_nil h⟩
  · rintro ⟨rfl, hne⟩
    rw [leadingName_eq] at hne
    by_contra h
    exact hne (if_neg h)

/-! ## What the scan passes over -/

/-- The number of opening braces that a text starts with, at most one. -/
def braces (s : List Char) : Nat := if s.head? = some '\x7b' then 1 else 0

/-- A variable takes up its opening brace and its name, and a closing brace if that follows. -/
theorem leadingLength_cases (s : List Char) :
    leadingLength s = braces s + (leadingName s).length ∨
      leadingLength s = braces s + (leadingName s).length + 1 ∧
        s[braces s + (leadingName s).length]? = some '\x7d' := by
  have hclosing {n : Nat} {rest : List Char} (h : s.drop n = '\x7d' :: rest) :
      s[n]? = some '\x7d' := by
    rw [← List.head?_drop, h]
    rfl
  unfold leadingLength
  split
  · dsimp only
    split
    · rename_i h
      exact .inr ⟨rfl, hclosing h⟩
    · exact .inl rfl
  · rename_i hopen
    have hbraces : braces s = 0 := by
      refine if_neg fun hhead => ?_
      obtain ⟨rest, rfl⟩ := List.head?_eq_some_iff.1 hhead
      exact hopen rest rfl
    rw [hbraces]
    dsimp only
    split
    · rename_i h
      exact .inr ⟨rfl, hclosing h⟩
    · exact .inl rfl

theorem leadingName_starts (s : List Char) : leadingName s <+: s.drop (braces s) := by
  have hstart : ('$' :: s).drop (nameStart ('$' :: s) 0) = s.drop (braces s) := by
    rw [nameStart, braces, List.getElem?_cons_succ, ← List.head?_eq_getElem?]
    split <;> rfl
  rw [leadingName_eq, ← hstart]
  split
  · exact List.takeWhile_prefix _
  · exact List.nil_prefix

theorem dollar_not_mem_leadingName (s : List Char) : '$' ∉ leadingName s := by
  rw [leadingName_eq]
  split
  · exact fun hmem => absurd (List.mem_takeWhile_imp hmem) (by decide)
  · exact List.not_mem_nil

/-- A variable takes up no dollar sign but its own. -/
theorem dollar_not_mem_passed (s : List Char) : '$' ∉ s.take (leadingLength s) := by
  intro hmem
  obtain ⟨j, hj⟩ := List.mem_iff_getElem?.1 hmem
  rw [List.getElem?_take] at hj
  split at hj
  · rename_i hlt
    -- The place is that of the opening brace, one in the name, or that of the closing brace.
    rcases Nat.lt_or_ge j (braces s) with hbrace | hbrace
    · unfold braces at hbrace
      split at hbrace
      · rename_i hhead
        obtain rfl : j = 0 := by omega
        rw [← List.head?_eq_getElem?, hhead] at hj
        exact absurd (Option.some.inj hj) (by decide)
      · cases hbrace
    · obtain ⟨rest, hrest⟩ := leadingName_starts s
      have hplace : (leadingName s ++ rest)[j - braces s]? = some '$' := by
        rw [hrest, List.getElem?_drop, Nat.add_sub_cancel' hbrace, hj]
      rcases Nat.lt_or_ge (j - braces s) (leadingName s).length with hname | hname
      · rw [List.getElem?_append_left hname] at hplace
        exact dollar_not_mem_leadingName s (List.mem_of_getElem? hplace)
      · rcases leadingLength_cases s with hlength | ⟨hlength, hclosing⟩
        · omega
        · obtain rfl : j = braces s + (leadingName s).length := by omega
          rw [hclosing] at hj
          exact absurd (Option.some.inj hj) (by decide)
  · cases hj

/-! ## The scan -/

/-- A scan that passes over no dollar sign finds the variables at all places. -/
theorem simpleUsesFrom_eq_usesIn (line : Int) {skip : Nat} (column : Nat) {s : List Char}
    (h : '$' ∉ s.take skip) : simpleUsesFrom line skip column s = usesIn line column s := by
  induction s generalizing skip column with
  | nil => rfl
  | cons c s ih =>
    rw [usesIn_cons]
    cases skip with
    | succ skip =>
      rw [List.take_succ_cons, List.mem_cons, not_or] at h
      have hnone : ¬opensAt (c :: s) 0 = true :=
        fun hopens => h.1 (opensAt_zero_iff.1 hopens).1.symm
      rw [simpleUsesFrom, ih (column + 1) h.2, if_neg hnone]
      rfl
    | zero =>
      rw [simpleUsesFrom]
      by_cases hopens : opensAt (c :: s) 0 = true
      · obtain ⟨rfl, hname⟩ := opensAt_zero_iff.1 hopens
        have huse : nameAt ('$' :: s) 0 = leadingName s := by rw [leadingName_eq, if_pos hopens]
        have hbehind := ih (column + 1) (dollar_not_mem_passed s)
        rw [if_pos ⟨rfl, hname⟩, if_pos hopens, hbehind, useAt, huse]
        rfl
      · rw [if_neg fun hfound => hopens (opensAt_zero_iff.2 hfound), if_neg hopens,
          ih (column + 1) (by simp)]
        rfl

/-- A dollar sign stands at a place, and a character that can start a name stands behind it, or
behind it and an opening brace. -/
def StandsAt (s : List Char) (i : Nat) : Prop :=
  s[i]? = some '$' ∧ ∃ c, startsName c = true ∧
    (s[i + 1]? = some c ∨ s[i + 1]? = some '\x7b' ∧ s[i + 2]? = some c)

theorem opensAt_iff_standsAt {s : List Char} {i : Nat} : opensAt s i = true ↔ StandsAt s i := by
  rw [opensAt, Bool.and_eq_true_iff, decide_eq_true_iff, Option.any_eq_true, StandsAt, nameStart]
  refine and_congr_right fun _ => ?_
  split
  · rename_i hbrace
    have hno : startsName '\x7b' = false := by decide
    constructor
    · rintro ⟨c, hc, hname⟩
      exact ⟨c, hname, .inr ⟨hbrace, hc⟩⟩
    · rintro ⟨c, hname, hc | ⟨-, hc⟩⟩
      · rw [hbrace, Option.some_inj] at hc
        rw [← hc, hno] at hname
        cases hname
      · exact ⟨c, hc, hname⟩
  · rename_i hbrace
    constructor
    · rintro ⟨c, hc, hname⟩
      exact ⟨c, hname, .inl hc⟩
    · rintro ⟨c, hname, hc | ⟨hopen, -⟩⟩
      · exact ⟨c, hc, hname⟩
      · exact absurd hopen hbrace

theorem lt_length_of_standsAt {s : List Char} {i : Nat} (h : StandsAt s i) : i < s.length :=
  (List.getElem?_eq_some_iff.1 h.1).1

theorem mem_usesIn {line : Int} {column : Nat} {s : List Char} {u : Use} :
    u ∈ usesIn line column s ↔ ∃ i, StandsAt s i ∧ u = useAt line column s i := by
  simp only [usesIn, List.mem_map, List.mem_filter, List.mem_range, opensAt_iff_standsAt]
  constructor
  · rintro ⟨i, ⟨-, hstands⟩, rfl⟩
    exact ⟨i, hstands, rfl⟩
  · rintro ⟨i, hstands, rfl⟩
    exact ⟨i, ⟨lt_length_of_standsAt hstands, hstands⟩, rfl⟩

theorem usesIn_ascending (line : Int) (column : Nat) (s : List Char) :
    (usesIn line column s).Pairwise fun u u' => u.column < u'.column := by
  refine List.pairwise_map.2 (List.Pairwise.imp ?_ (List.pairwise_lt_range.filter _))
  intro i j hlt
  simp only [useAt]
  omega

/-- Recording the simple variables of a text appends uses and changes nothing else. There is one
for each place at which a dollar sign is followed, at once or behind an opening brace, by a letter
or an underscore, and they come in the order of their places, which are their columns. The name of
each is the longest run of name characters there, behind a dollar sign. -/
theorem recordSimple_appends_each (line : Int) (text : String) (s : State) :
    ∃ uses : List Use,
      (recordSimple line text).exec s = (.ok (), { s with used := s.used ++ uses }) ∧
      (uses.Pairwise fun u u' => u.column < u'.column) ∧
      ∀ u, u ∈ uses ↔ ∃ i : Nat, StandsAt text.toList i ∧
        u = { name := String.ofList ('$' :: nameAt text.toList i), line := line, column := i } := by
  refine ⟨usesIn line 0 text.toList, ?_, usesIn_ascending line 0 _, fun u => ?_⟩
  · rw [recordSimple, exec_modify, simpleUses, simpleUsesFrom_eq_usesIn line 0 (by simp)]
  · simp only [mem_usesIn, useAt, Nat.zero_add]

example :
    usesIn 3 0 "$$x$\x7b\x7b$\x7ba1\x7d$_b$1".toList =
      [⟨"$x", 3, 1⟩, ⟨"$a1", 3, 6⟩, ⟨"$_b", 3, 11⟩] := by
  decide +kernel

end ShellAudit.Walk
