-- SUMMARY: What the repair of a variable gives at every column, and which fault it stops with.
import ShellAudit.Proofs.BetweenQuotes

/-!
# The outcomes of repairing a variable

In a line without tabs the repair of a variable at a column has four outcomes. Behind the end of
the line it stops. A column between quotes is left alone, whether a dollar sign stands there or not.
Elsewhere the repair stops if no dollar sign stands at the column or before it. Otherwise the last
one up to the column is meant, and the longest run from it on is put between quotes.
-/

namespace ShellAudit.Repair

variable {line : List Char} {p : Nat}

/-! ## The dollar sign that is meant -/

theorem dollarAt_behind (hp : line.length ≤ p) :
    dollarAt line (p : Int) = .error .columnOutOfRange := by
  rw [dollarAt, Text.at?_ofNat, List.getElem?_eq_none hp]

theorem dollarAt_of_no_dollar (hp : p < line.length) (h : '$' ∉ line.take (p + 1)) :
    dollarAt line (p : Int) = .error .missingDollar := by
  rw [List.take_succ_eq_append_getElem hp, List.mem_append, not_or, List.mem_singleton] at h
  rw [dollarAt, Text.at?_ofNat, List.getElem?_eq_getElem hp]
  simp only [Ne.symm h.2, if_false, Int.toNat_natCast, Text.findLast?_of_not_mem h.1]
  exact ite_self _

theorem dollarAt_of_last {front inner : List Char} (hp : p < line.length)
    (hlast : line.take (p + 1) = front ++ '$' :: inner) (hinner : '$' ∉ inner) :
    dollarAt line (p : Int) = .ok (front.length : Int) := by
  rw [dollarAt, Text.at?_ofNat, List.getElem?_eq_getElem hp]
  rw [List.take_succ_eq_append_getElem hp] at hlast
  -- Either the dollar sign stands at the column, or it stands before another character there.
  rcases List.eq_nil_or_concat inner with rfl | ⟨inner, c, rfl⟩
  · obtain ⟨hfront, hc⟩ := List.append_inj' hlast rfl
    have hc := List.singleton_inj.1 hc
    have hlength := congrArg List.length hfront
    rw [List.length_take_of_le (Nat.le_of_lt hp)] at hlength
    simp only [hc, if_true]
    rw [← hlength]
  · rw [List.concat_eq_append, ← List.cons_append, ← List.append_assoc] at hlast
    obtain ⟨hfront, hc⟩ := List.append_inj' hlast rfl
    have hc := List.singleton_inj.1 hc
    rw [List.concat_eq_append, List.mem_append, not_or, List.mem_singleton] at hinner
    have hpos : p ≠ 0 := by
      rintro rfl
      simp at hfront
    simp only [hc, Ne.symm hinner.2, if_false, Int.toNat_natCast, hfront,
      Text.findLast?_append_cons front hinner.1]
    rw [if_neg (by omega)]

/-! ## The outcomes -/

/-- Where a line without tabs is not quoted, the run at the dollar sign is. -/
theorem variableIn_of_open (htab : '\t' ∉ line) {column : Int}
    (hcheck : Quoting.check line '"' column (column + 1) = .ok false) :
    variableIn line line column =
      (dollarAt line column).map fun dollar => (quoteRun line dollar, 2) := by
  simp only [variableIn, hcheck, List.count_eq_zero_of_not_mem htab, restoreTabs, bind, Except.bind,
    pure, Except.pure, Bool.false_eq_true, if_false]
  cases dollarAt line column <;> rfl

theorem variableIn_behind_end (htab : '\t' ∉ line) (hp : line.length ≤ p) :
    variableIn line line (p : Int) = .error .columnOutOfRange := by
  rcases Nat.eq_or_lt_of_le hp with rfl | hp
  · have hcheck :
        Quoting.check line '"' (line.length : Int) ((line.length : Int) + 1) = .ok false := by
      simpa using @Quoting.check_behind line [] List.not_mem_nil 0 (Nat.le_refl 0)
    rw [variableIn_of_open htab hcheck, dollarAt_behind (Nat.le_refl _)]
    rfl
  · have hopening : Quoting.opening? line '"' (p : Int) = .error .columnOutOfRange := by
      rw [Quoting.opening?, if_neg (by omega), if_pos (by omega)]
    simp only [variableIn, Quoting.check, hopening, bind, Except.bind]

/-- The last dollar sign up to a column with the longest run from it on: what stands before the
dollar sign, the run, and what stands behind the run. -/
structure LastRun (line : List Char) (p : Nat) (front run rest : List Char) : Prop where
  line_eq : line = front ++ (run ++ rest)
  reach : front.length ≤ p
  dollar : run.head? = some '$'
  last : '$' ∉ (line.take (p + 1)).drop (front.length + 1)
  inside : ∀ c ∈ run, inRun c = true
  outside : ∀ c, rest.head? = some c → inRun c = false

theorem lastRun_of_last {front inner : List Char}
    (hlast : line.take (p + 1) = front ++ '$' :: inner) (hinner : '$' ∉ inner) :
    LastRun line p front (runAt line front.length) (behindRun line front.length) := by
  have hstarts : front ++ '$' :: inner <+: line := hlast ▸ List.take_prefix _ _
  obtain ⟨behind, hline⟩ := hstarts
  have hfront : line.take front.length = front := by
    rw [← hline, List.append_assoc, List.take_left]
  have hrest : line.drop front.length = '$' :: (inner ++ behind) := by
    rw [← hline, List.append_assoc, List.drop_left]
    rfl
  have hpieces := take_append_runAt line front.length
  rw [hfront] at hpieces
  have hlength := congrArg List.length hlast
  refine ⟨hpieces.symm, ?_, ?_, ?_, fun c => inRun_of_mem_runAt, fun c => inRun_head_behindRun⟩
  · simp only [List.length_take, List.length_append, List.length_cons] at hlength
    omega
  · have hdollar : inRun '$' = true := rfl
    rw [runAt, hrest, List.takeWhile_cons, hdollar]
    rfl
  · rw [hlast, ← List.drop_drop, List.drop_left]
    exact hinner

theorem variableIn_of_no_dollar (htab : '\t' ∉ line) (hp : p < line.length)
    (hcheck : Quoting.check line '"' (p : Int) ((p : Int) + 1) = .ok false)
    (h : '$' ∉ line.take (p + 1)) :
    variableIn line line (p : Int) = .error .missingDollar := by
  rw [variableIn_of_open htab hcheck, dollarAt_of_no_dollar hp h]
  rfl

theorem variableIn_of_dollar (htab : '\t' ∉ line) (hp : p < line.length)
    (hcheck : Quoting.check line '"' (p : Int) ((p : Int) + 1) = .ok false)
    (h : '$' ∈ line.take (p + 1)) :
    ∃ front run rest, LastRun line p front run rest ∧
      variableIn line line (p : Int) = .ok (front ++ '"' :: run ++ '"' :: rest, 2) := by
  obtain ⟨front, inner, hlast, hinner⟩ := exists_last_of_mem h
  have hrun := lastRun_of_last hlast hinner
  have hfront : line.take front.length = front := by
    conv_lhs => rw [hrun.line_eq, List.take_left]
  refine ⟨front, _, _, hrun, ?_⟩
  rw [variableIn_of_open htab hcheck, dollarAt_of_last hp hlast hinner]
  simp only [Except.map, quoteRun_ofNat, quotedAt, hfront]

/-- The repair of a variable at every column that is not before the line, in every line without
tabs. It stops for the column exactly if that is not in the line. In the line, a column between
quotes is left alone. At any other the repair stops for want of a dollar sign exactly if none stands
at the column or before it; otherwise it puts one quote before the last of them, one behind the
longest run from there on, and nothing else. -/
theorem quoteVariable_outcome (htab : '\t' ∉ line) {base column : Int}
    (hp : base + column - 1 = (p : Int)) :
    let result := Remedy.quoteVariable.apply line (base + column - 1)
    (result = .error .columnOutOfRange ↔ line.length ≤ p) ∧
      (p < line.length → ∃ quoted, Quoting.check line '"' (p : Int) ((p : Int) + 1) = .ok quoted ∧
        (quoted = true → result = .ok (line, 0)) ∧
        (quoted = false →
          (result = .error .missingDollar ↔ '$' ∉ line.take (p + 1)) ∧
            ('$' ∈ line.take (p + 1) → ∃ front run rest, LastRun line p front run rest ∧
              result = .ok (front ++ '"' :: run ++ '"' :: rest, 2)))) := by
  intro result
  have hresult : result = variableIn line line (p : Int) := by rw [← hp]; rfl
  rw [hresult]
  rcases Nat.lt_or_ge p line.length with hlt | hge
  · have hcast : ((p + 1 : Nat) : Int) = (p : Int) + 1 := by omega
    obtain ⟨quoted, hcheck⟩ := @Quoting.check_returns line '"' p (p + 1) (Nat.le_of_lt hlt)
    rw [hcast] at hcheck
    cases quoted with
    | true =>
      have hsame := variableIn_of_check hcheck
      exact ⟨iff_of_false (by simp [hsame]) (by omega), fun _ => ⟨true, hcheck, fun _ => hsame,
        fun hopen => absurd hopen (by decide)⟩⟩
    | false =>
      by_cases hdollar : '$' ∈ line.take (p + 1)
      · obtain ⟨front, run, rest, hrun, hout⟩ := variableIn_of_dollar htab hlt hcheck hdollar
        exact ⟨iff_of_false (by simp [hout]) (by omega), fun _ => ⟨false, hcheck,
          fun hquoted => absurd hquoted (by decide), fun _ =>
            ⟨iff_of_false (by simp [hout]) (not_not_intro hdollar), fun _ =>
              ⟨front, run, rest, hrun, hout⟩⟩⟩⟩
      · have hstop := variableIn_of_no_dollar htab hlt hcheck hdollar
        exact ⟨iff_of_false (by simp [hstop]) (by omega), fun _ => ⟨false, hcheck,
          fun hquoted => absurd hquoted (by decide), fun _ =>
            ⟨iff_of_true hstop hdollar, fun hmem => absurd hmem hdollar⟩⟩⟩
  · exact ⟨iff_of_true (variableIn_behind_end htab hge) hge, fun hlt => absurd hge (by omega)⟩

/-- A variable at the start of a line, with quotes behind it. -/
def leadingVariable : List Char := "$x \"y\" z".toList

/-- At the last character, which stands behind the quotes, the variable at the start is meant; at
the one between the quotes nothing is done; and behind the last one the repair stops. -/
theorem quoteVariable_outcome_leading :
    '\t' ∉ leadingVariable ∧
      (∃ front run rest, LastRun leadingVariable 7 front run rest ∧
        front ++ '"' :: run ++ '"' :: rest = "\"$x\" \"y\" z".toList ∧
        Remedy.quoteVariable.apply leadingVariable (2 + 6 - 1) =
          .ok (front ++ '"' :: run ++ '"' :: rest, 2)) ∧
      Remedy.quoteVariable.apply leadingVariable (0 + 5 - 1) = .ok (leadingVariable, 0) ∧
      Remedy.quoteVariable.apply leadingVariable (2 + 7 - 1) = .error .columnOutOfRange := by
  have htab : '\t' ∉ leadingVariable := by decide +kernel
  have hlength : leadingVariable.length = 8 := by decide +kernel
  refine ⟨htab, ?_, ?_, ?_⟩
  · obtain ⟨quoted, hcheck, -, hopen⟩ :=
      (@quoteVariable_outcome leadingVariable 7 htab 2 6 rfl).2 (by omega)
    have hquoted : Quoting.check leadingVariable '"' 7 8 = .ok false := by decide +kernel
    obtain rfl : quoted = false := Except.ok.inj (hcheck.symm.trans hquoted)
    obtain ⟨front, run, rest, hrun, hout⟩ := (hopen rfl).2 (by decide +kernel)
    have hcomputed : Remedy.quoteVariable.apply leadingVariable (2 + 6 - 1) =
        .ok ("\"$x\" \"y\" z".toList, 2) := by decide +kernel
    exact ⟨front, run, rest, hrun,
      congrArg Prod.fst (Except.ok.inj (hout.symm.trans hcomputed)), hout⟩
  · obtain ⟨quoted, hcheck, hsame, -⟩ :=
      (@quoteVariable_outcome leadingVariable 4 htab 0 5 rfl).2 (by omega)
    have hquoted : Quoting.check leadingVariable '"' 4 5 = .ok true := by decide +kernel
    exact hsame (Except.ok.inj (hcheck.symm.trans hquoted))
  · exact (@quoteVariable_outcome leadingVariable 8 htab 2 7 rfl).1.2 (by omega)

end ShellAudit.Repair
