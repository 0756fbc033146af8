-- SUMMARY: A substitution is quoted up to the parenthesis that closes it.
import Mathlib.Data.List.Infix
import ShellAudit.Proofs.Repairing

/-!
# Substitutions in parentheses

The repair counts parentheses from the dollar sign on, and stops where as many are closed as
opened. Behind `$(` one is open, so the count falls to zero for the first time exactly at the end
of the shortest beginning in which there are as many of both kinds. What stands between the
parentheses does not matter, and neither do parentheses behind that end.
-/

namespace ShellAudit.Repair

open Text

/-- A text that opens parentheses and closes as many. -/
def Closes (s : List Char) : Prop := '(' ∈ s ∧ s.count '(' = s.count ')'

instance (s : List Char) : Decidable (Closes s) := inferInstanceAs (Decidable (_ ∧ _))

/-- A text in which some parenthesis is still open. -/
def Unclosed (s : List Char) : Prop := s.count ')' < s.count '('

/-- The shortest beginning of a text that closes the parentheses it opens. -/
structure ShortestClosing (text p : List Char) : Prop where
  stands : p <+: text
  closes : Closes p
  shortest : ∀ q, q <+: text → Closes q → p.length ≤ q.length

/-! ## Counting -/

/-- No beginning of the text closes all of the parentheses, of which `depth` are open before it. -/
def StaysOpen (depth : Nat) (s : List Char) : Prop :=
  ∀ q, q <+: s → q.count ')' < depth + q.count '('

theorem staysOpen_nil {depth : Nat} (h : 0 < depth) : StaysOpen depth [] := by
  intro q hq
  rw [List.prefix_nil.1 hq]
  simpa using h

/-- The first character changes how many parentheses are open before the others. -/
theorem StaysOpen.cons {depth depth' : Nat} {c : Char} {s : List Char} (hdepth : 0 < depth)
    (hc : depth' + [c].count ')' = depth + [c].count '(') (h : StaysOpen depth' s) :
    StaysOpen depth (c :: s) := by
  intro q hq
  rcases List.prefix_cons_iff.1 hq with rfl | ⟨t, rfl, ht⟩
  · simpa using hdepth
  · have hcounts := h t ht
    rw [← List.singleton_append, List.count_append, List.count_append]
    omega

/-- The scan of a text before which `depth` parentheses are open finds the one that closes the
last of them behind `inner`. -/
structure FindsBehind (depth : Nat) (position : Int) (s inner : List Char) : Prop where
  stands : inner ++ [')'] <+: s
  staysOpen : StaysOpen depth inner
  count : depth + inner.count '(' = inner.count ')' + 1
  found : matching? depth position s = some (position + inner.length)

theorem FindsBehind.cons {depth depth' : Nat} {position : Int} {c : Char} {s inner : List Char}
    (hdepth : 0 < depth) (hc : depth' + [c].count ')' = depth + [c].count '(')
    (hstep : matching? depth position (c :: s) = matching? depth' (position + 1) s)
    (h : FindsBehind depth' (position + 1) s inner) :
    FindsBehind depth position (c :: s) (c :: inner) where
  stands := (List.prefix_cons_inj c).2 h.stands
  staysOpen := h.staysOpen.cons hdepth hc
  count := by
    have := h.count
    rw [← List.singleton_append, List.count_append, List.count_append]
    omega
  found := by
    rw [hstep, h.found, List.length_cons]
    congr 1
    omega

/-- The scan stops at the parenthesis that closes the last open one, and finds none only if they
stay open up to the end. -/
theorem matching?_spec {depth : Nat} (hdepth : 0 < depth) (position : Int) (s : List Char) :
    (∃ inner, FindsBehind depth position s inner) ∨
      (StaysOpen depth s ∧ matching? depth position s = none) := by
  induction s generalizing depth position with
  | nil => exact .inr ⟨staysOpen_nil hdepth, rfl⟩
  | cons c s ih =>
    -- What the scan of the rest finds, it finds behind `c` as well.
    have next {depth' : Nat} (hdepth' : 0 < depth')
        (hc : depth' + [c].count ')' = depth + [c].count '(')
        (hstep : matching? depth position (c :: s) = matching? depth' (position + 1) s) :
        (∃ inner, FindsBehind depth position (c :: s) inner) ∨
          (StaysOpen depth (c :: s) ∧ matching? depth position (c :: s) = none) := by
      rcases ih hdepth' (position + 1) with ⟨inner, hfinds⟩ | ⟨hopen, hnone⟩
      · exact .inl ⟨c :: inner, hfinds.cons hdepth hc hstep⟩
      · exact .inr ⟨hopen.cons hdepth hc, hstep.trans hnone⟩
    by_cases hopens : c = '('
    · refine next (Nat.succ_pos depth) (by simp [hopens]) ?_
      rw [matching?, if_pos hopens]
      rfl
    · by_cases hcloses : c = ')'
      · by_cases hlast : depth = 1
        · refine .inl ⟨[], by simp [hcloses], staysOpen_nil hdepth, by simpa using hlast, ?_⟩
          rw [matching?, if_neg hopens, if_pos hcloses, if_pos (by omega)]
          simp
        · obtain ⟨less, rfl⟩ : ∃ less, depth = less + 1 := ⟨depth - 1, by omega⟩
          refine next (show 0 < less by omega) (by simp [hcloses]) ?_
          rw [matching?, if_neg hopens, if_pos hcloses, if_neg (by omega)]
          congr 1
          omega
      · refine next hdepth (by simp [hopens, hcloses]) ?_
        rw [matching?, if_neg hopens, if_neg hcloses]

/-! ## Beginnings that open a substitution -/

section

variable {s : List Char}

theorem count_opening : ('$' :: '(' :: s).count '(' = 1 + s.count '(' := by
  rw [List.count_cons_of_ne (by decide), List.count_cons_self, Nat.add_comm]

theorem count_closing : ('$' :: '(' :: s).count ')' = s.count ')' := by
  rw [List.count_cons_of_ne (by decide), List.count_cons_of_ne (by decide)]

theorem closes_opened_iff : Closes ('$' :: '(' :: s) ↔ 1 + s.count '(' = s.count ')' := by
  rw [Closes, count_opening, count_closing]
  exact and_iff_right (List.mem_cons_of_mem _ List.mem_cons_self)

theorem unclosed_opened_iff : Unclosed ('$' :: '(' :: s) ↔ s.count ')' < 1 + s.count '(' := by
  rw [Unclosed, count_opening, count_closing]

/-- A beginning with a parenthesis in it holds the first one. -/
theorem prefix_opened {q : List Char} (hq : q <+: '$' :: '(' :: s) (hopens : '(' ∈ q) :
    ∃ t, q = '$' :: '(' :: t ∧ t <+: s := by
  rcases List.prefix_cons_iff.1 hq with rfl | ⟨behind, rfl, hbehind⟩
  · cases hopens
  · rcases List.prefix_cons_iff.1 hbehind with rfl | ⟨t, rfl, ht⟩
    · exact absurd hopens (by decide)
    · exact ⟨t, rfl, ht⟩

/-- If the parenthesis is never closed, no beginning closes what it opens. -/
theorem not_closes_of_staysOpen (h : StaysOpen 1 s) {q : List Char}
    (hq : q <+: '$' :: '(' :: s) : ¬Closes q := by
  intro hcloses
  obtain ⟨t, rfl, ht⟩ := prefix_opened hq hcloses.1
  have := h t ht
  have := closes_opened_iff.1 hcloses
  omega

variable {position : Int} {inner : List Char} (h : FindsBehind 1 position s inner)

include h

theorem FindsBehind.shortestClosing :
    ShortestClosing ('$' :: '(' :: s) ('$' :: '(' :: inner ++ [')']) := by
  refine ⟨?_, ?_, fun q hq hcloses => ?_⟩
  · rw [List.cons_append, List.cons_append, List.prefix_cons_inj, List.prefix_cons_inj]
    exact h.stands
  · have hlast : [')'].count '(' = 0 ∧ [')'].count ')' = 1 := by decide
    rw [List.cons_append, List.cons_append, closes_opened_iff, List.count_append,
      List.count_append, hlast.1, hlast.2]
    exact h.count
  · obtain ⟨t, rfl, ht⟩ := prefix_opened hq hcloses.1
    by_contra hlt
    have hshort : t.length ≤ inner.length := by
      simp only [List.length_cons, List.length_append, List.length_nil] at hlt
      omega
    -- A beginning as short as this does not reach the parenthesis that closes.
    have hinner : t <+: inner :=
      List.prefix_of_prefix_length_le ht ((List.prefix_append inner [')']).trans h.stands) hshort
    have := h.staysOpen t hinner
    have := closes_opened_iff.1 hcloses
    omega

theorem FindsBehind.unclosed {q : List Char} (hq : q <+: '$' :: '(' :: inner ++ [')'])
    (hne : q ≠ '$' :: '(' :: inner ++ [')']) (hopens : '(' ∈ q) : Unclosed q := by
  obtain ⟨t, rfl, ht⟩ := prefix_opened hq hopens
  rcases List.prefix_concat_iff.1 ht with rfl | ht
  · exact absurd rfl hne
  · exact unclosed_opened_iff.2 (h.staysOpen t ht)

end

/-! ## The repair -/

/-- Where the characters at a place start a substitution, the scan from there on is that of the
text behind its parenthesis. -/
theorem matching?_opened (start : Nat) (s : List Char) :
    matching? 0 (start : Int) ('$' :: '(' :: s) =
      matching? (1 : Nat) ((start + 2 : Nat) : Int) s := by
  rw [matching?, if_neg (by decide), if_neg (by decide), matching?, if_pos rfl]
  rfl

/-- At a dollar sign with a parenthesis behind it, the repair of a substitution puts double quotes
around the shortest beginning of what stands there that closes the parentheses it opens. All else
stays as it is, and two characters are added. Up to the end of that beginning some parenthesis is
open. If there is no such beginning, nothing is done. -/
theorem substitutionIn_quotes_closing {row : List Char} {start added : Nat} {column : Int}
    (hcolumn : added + column - 1 = start) (hdollar : row[start]? = some '$')
    (hopens : row[start + 1]? = some '(') :
    ((∃ q, q <+: row.drop start ∧ Closes q) →
      ∃ p, ShortestClosing (row.drop start) p ∧
        (∀ q, q <+: p → q ≠ p → '(' ∈ q → Unclosed q) ∧
        Remedy.quoteSubstitution.apply row (added + column - 1) =
          .ok (row.take start ++ '"' :: p ++ '"' :: row.drop (start + p.length), 2)) ∧
      ((¬∃ q, q <+: row.drop start ∧ Closes q) →
        Remedy.quoteSubstitution.apply row (added + column - 1) = .ok (row, 0)) := by
  have happly : Remedy.quoteSubstitution.apply row (added + column - 1) =
      parentheses row (start : Int) := by
    rw [hcolumn, Remedy.apply, substitutionIn, at?_ofNat, hdollar]
    rfl
  obtain ⟨s, hs⟩ : ∃ s, row.drop start = '$' :: '(' :: s := by
    obtain ⟨hlt, hchar⟩ := List.getElem?_eq_some_iff.1 hdollar
    obtain ⟨hlt', hchar'⟩ := List.getElem?_eq_some_iff.1 hopens
    rw [List.drop_eq_getElem_cons hlt, List.drop_eq_getElem_cons hlt', hchar, hchar']
    exact ⟨_, rfl⟩
  rw [happly, hs]
  rcases matching?_spec Nat.one_pos ((start + 2 : Nat) : Int) s with ⟨inner, h⟩ | ⟨hopen, hnone⟩
  · have hshortest := h.shortestClosing
    refine ⟨fun _ => ⟨_, hshortest, fun q => h.unclosed, ?_⟩,
      fun hno => absurd ⟨_, hshortest.stands, hshortest.closes⟩ hno⟩
    have hscan : matching? 0 (start : Int) (row.drop start) =
        some ((start + (inner.length + 2) : Nat) : Int) := by
      rw [hs, matching?_opened, h.found]
      congr 1
      omega
    have hlength : ('$' :: '(' :: inner ++ [')']).length = inner.length + 2 + 1 := by simp
    have hinner : (row.take (start + (inner.length + 2) + 1)).drop start =
        '$' :: '(' :: inner ++ [')'] := by
      rw [List.drop_take, hs, Nat.add_assoc, Nat.add_sub_cancel_left, ← hlength]
      exact (List.prefix_iff_eq_take.1 hshortest.stands).symm
    rw [parentheses_of_matching? hscan, hinner, hlength, Nat.add_assoc]
  · have hnever (q : List Char) (hq : q <+: '$' :: '(' :: s) := not_closes_of_staysOpen hopen hq
    refine ⟨fun ⟨q, hq, hcloses⟩ => absurd hcloses (hnever q hq), fun _ => ?_⟩
    exact parentheses_of_unmatched (by rw [hs, matching?_opened, hnone])

/-- A substitution with another one and a subshell in it, in a line that has grown by two; and one
that is not closed. -/
theorem substitutionIn_quotes_closing_nested :
    let row := "\"$a\" $(b $(c) (d)) $(e".toList
    let quoted := "\"$a\" \"$(b $(c) (d))\" $(e".toList
    (Closes "$(b $(c) (d))".toList ∧
        Remedy.quoteSubstitution.apply row ((2 : Nat) + 4 - 1) = .ok (quoted, 2) ∧
        ∃ p, ShortestClosing (row.drop 5) p ∧
          row.take 5 ++ '"' :: p ++ '"' :: row.drop (5 + p.length) = quoted) ∧
      (¬(∃ q, q <+: row.drop 19 ∧ Closes q) ∧
        Remedy.quoteSubstitution.apply row ((2 : Nat) + 18 - 1) = .ok (row, 0)) := by
  intro row quoted
  have hcloses : Closes "$(b $(c) (d))".toList := by decide +kernel
  have hnone : ¬∃ q, q <+: row.drop 19 ∧ Closes q := by
    rintro ⟨q, hq, hcloses⟩
    have hall : (row.drop 19).inits.all (fun q => decide ¬Closes q) = true := by decide +kernel
    exact of_decide_eq_true (List.all_eq_true.1 hall q ((List.mem_inits q _).2 hq)) hcloses
  obtain ⟨p, hp, -, hrepaired⟩ :=
    (substitutionIn_quotes_closing (by decide : ((2 : Nat) : Int) + 4 - 1 = (5 : Nat))
      (by decide +kernel : row[5]? = some '$') (by decide +kernel)).1
      ⟨_, by decide +kernel, hcloses⟩
  have hkept :=
    (substitutionIn_quotes_closing (by decide : ((2 : Nat) : Int) + 18 - 1 = (19 : Nat))
      (by decide +kernel : row[19]? = some '$') (by decide +kernel)).2 hnone
  have hcomputed : Remedy.quoteSubstitution.apply row ((2 : Nat) + 4 - 1) = .ok (quoted, 2) := by
    decide +kernel
  have hsame := congrArg Prod.fst (Except.ok.inj (hrepaired.symm.trans hcomputed))
  exact ⟨⟨hcloses, hcomputed, p, hp, hsame⟩, hnone, hkept⟩

end ShellAudit.Repair
