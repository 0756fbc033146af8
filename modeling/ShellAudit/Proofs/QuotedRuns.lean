-- SUMMARY: The repair of the variables of a row puts each run of name characters in quotes once.
import ShellAudit.Proofs.RowsKept

/-!
# Quoting the variables of a row

The variables of a row are quoted from left to right. One that stands in a run that has been
quoted is looked up one column too far, since only one of the two new quotes stands before it;
it is found to be quoted all the same, because a name character follows its dollar sign in the
run. One that stands behind the run is found where it is, since both quotes stand before it.
-/

namespace ShellAudit

namespace Text

theorem findLast?_of_not_mem {c : Char} {s : List Char} (h : c ∉ s) : findLast? [c] s = none := by
  rw [Option.eq_none_iff_forall_ne_some]
  intro i hi
  exact h (List.mem_of_getElem? (getElem?_of_findLast? hi))

theorem findLast?_append_cons {c : Char} (front : List Char) {s : List Char} (h : c ∉ s) :
    findLast? [c] (front ++ c :: s) = some front.length := by
  induction front with
  | nil => simp [findLast?, findLast?_of_not_mem h, List.isPrefixOf]
  | cons d front ih => simp [findLast?, ih]

end Text

namespace Quoting

/-- With no quote behind it, a span is not quoted, whatever stands before it. -/
theorem check_behind (front : List Char) {right : List Char} (h : '"' ∉ right) {k : Nat}
    (hk : k ≤ right.length) :
    check (front ++ right) '"' ((front.length + k : Nat) : Int)
      ((front.length + k : Nat) + 1 : Int) = .ok false := by
  have hopening : ∃ opening,
      opening? (front ++ right) '"' ((front.length + k : Nat) : Int) = .ok opening := by
    unfold opening?
    split
    · exact ⟨none, rfl⟩
    · rw [if_neg (by rw [List.length_append]; omega)]
      exact ⟨_, rfl⟩
  obtain ⟨opening, hopening⟩ := hopening
  have hcloses : closes (front ++ right) '"' ((front.length + k : Nat) + 1 : Int) = .ok false := by
    have hdrop : (front ++ right).drop (front.length + k + 1) = right.drop (k + 1) := by
      rw [Nat.add_assoc, List.drop_length_add_append]
    have hstop : (((front.length + k : Nat) : Int) + 1).toNat = front.length + k + 1 := by omega
    unfold closes
    rw [if_pos (by omega), hstop, hdrop]
    have hnot : (right.drop (k + 1)).contains '"' = false := by
      rw [List.contains_eq_mem, decide_eq_false_iff_not]
      exact fun hmem => h (List.mem_of_mem_drop hmem)
    rw [hnot]
  simp only [check, hopening, hcloses, bind, Except.bind, pure, Except.pure, Bool.and_false]
  split <;> exact ite_self _

/-- A span between two quotes is quoted, unless a command substitution follows the first. -/
theorem check_between (front : List Char) {run : List Char} (right : List Char) (h : '"' ∉ run)
    (hrun : '(' ∉ run) {i j : Nat} (hi : i ≤ run.length) (hj : j ≤ run.length) :
    check (front ++ '"' :: run ++ '"' :: right) '"' ((front.length + 1 + i : Nat) : Int)
      ((front.length + 1 + j : Nat) : Int) = .ok true := by
  have htake : (front ++ '"' :: run ++ '"' :: right).take (front.length + 1 + i) =
      front ++ '"' :: run.take i := by
    rw [List.append_assoc, Nat.add_assoc, List.take_length_add_append, Nat.add_comm 1 i]
    simp [List.take_append_of_le_length hi]
  have hdrop (k : Nat) (hk : k ≤ run.length) :
      (front ++ '"' :: run ++ '"' :: right).drop (front.length + 1 + k) =
        run.drop k ++ '"' :: right := by
    rw [List.append_assoc, Nat.add_assoc, List.drop_length_add_append, Nat.add_comm 1 k]
    simp [List.drop_append_of_le_length hk]
  have hopening : opening? (front ++ '"' :: run ++ '"' :: right) '"'
      ((front.length + 1 + i : Nat) : Int) = .ok (some front.length) := by
    unfold opening?
    rw [if_neg (by omega), if_neg (by simp; omega), Int.toNat_natCast, htake,
      Text.findLast?_append_cons front fun hmem => h (List.mem_of_mem_take hmem)]
  have hsubst : ((front ++ '"' :: run ++ '"' :: right).drop (front.length + 1)).take 2 ≠
      ['$', '('] := by
    intro heq
    have hinside := hdrop 0 (Nat.zero_le _)
    rw [Nat.add_zero, List.drop_zero] at hinside
    rw [hinside] at heq
    rcases run with _ | ⟨c, _ | ⟨d, run⟩⟩
    · cases right <;> simp at heq
    · simp at heq
    · obtain ⟨-, rfl⟩ : c = '$' ∧ d = '(' := by simpa using heq
      exact hrun (List.mem_cons_of_mem c List.mem_cons_self)
  have hcloses : closes (front ++ '"' :: run ++ '"' :: right) '"'
      ((front.length + 1 + j : Nat) : Int) = .ok true := by
    unfold closes
    rw [if_pos (Int.natCast_nonneg _), Int.toNat_natCast, hdrop j hj]
    simp
  simp only [check, hopening, hcloses, hsubst, bind, Except.bind, pure, Except.pure, and_false,
    if_false, Option.isSome_some, Bool.and_self]

/-- Inside a quoted run, a span is quoted if the closing quote does not stand in it. -/
theorem check_inside (front : List Char) {run : List Char} (right : List Char) (h : '"' ∉ run)
    (hrun : '(' ∉ run) {k : Nat} (hk : k + 1 < run.length) :
    check (front ++ '"' :: run ++ '"' :: right) '"' ((front.length + k + 2 : Nat) : Int)
      ((front.length + k + 2 : Nat) + 1 : Int) = .ok true := by
  have hbetween := check_between front right h hrun (Nat.le_of_lt hk) (Nat.succ_le_of_lt hk)
  have hstart : front.length + 1 + (k + 1) = front.length + k + 2 := by omega
  have hstop : ((front.length + 1 + (k + 1 + 1) : Nat) : Int) =
      (front.length + k + 2 : Nat) + 1 := by omega
  rwa [hstart, hstop] at hbetween

end Quoting

namespace Repair

open Text

/-! ## Quoted runs -/

/-- Characters that make a dollar sign before them the start of a variable. -/
def nameChar (c : Char) : Bool := c.isAlphanum || c = '_' || c = '*' || c = '#' || c = '@'

theorem inRun_of_nameChar {c : Char} (h : nameChar c = true) : inRun c = true := by
  simp only [nameChar, inRun, Bool.or_eq_true] at h ⊢
  tauto

/-- A dollar sign with a name character behind it. -/
def VariableAt (row : List Char) (p : Nat) : Prop :=
  row[p]? = some '$' ∧ ∃ c, row[p + 1]? = some c ∧ nameChar c = true

/-- The second text is the first, whose characters stand from `i` on, with the run at each
flagged position between double quotes. A run is as long as can be, and the flagged positions
inside it start no run of their own. -/
inductive Quoted (flagged : Nat → Prop) : Nat → List Char → List Char → Prop
  | done {i : Nat} : Quoted flagged i [] []
  | skip {i : Nat} {c : Char} {s out : List Char} : ¬ flagged i →
      Quoted flagged (i + 1) s out → Quoted flagged i (c :: s) (c :: out)
  | run {i : Nat} {s out : List Char} : flagged i → s.takeWhile inRun ≠ [] →
      Quoted flagged (i + (s.takeWhile inRun).length) (s.dropWhile inRun) out →
      Quoted flagged i s ('"' :: s.takeWhile inRun ++ '"' :: out)

namespace Quoted

variable {flagged flagged' : Nat → Prop} {i : Nat} {s out : List Char}

theorem congr (h : Quoted flagged i s out) (hsame : ∀ p, i ≤ p → (flagged p ↔ flagged' p)) :
    Quoted flagged' i s out := by
  induction h with
  | done => exact .done
  | skip hnot _ ih =>
    refine .skip (fun hi => hnot ((hsame _ (Nat.le_refl _)).2 hi)) (ih fun p hp => hsame p ?_)
    omega
  | run hi hne _ ih =>
    refine .run ((hsame _ (Nat.le_refl _)).1 hi) hne (ih fun p hp => hsame p ?_)
    omega

theorem skips {mid : List Char} (hmid : ∀ p, i ≤ p → p < i + mid.length → ¬ flagged p)
    (h : Quoted flagged (i + mid.length) s out) : Quoted flagged i (mid ++ s) (mid ++ out) := by
  induction mid generalizing i with
  | nil => exact h
  | cons c mid ih =>
    rw [List.length_cons] at hmid h
    refine .skip (hmid i (Nat.le_refl i) (by omega)) (ih (fun p hp hlt => ?_) ?_)
    · exact hmid p (by omega) (by omega)
    · rwa [Nat.add_assoc, Nat.add_comm 1]

/-- There is one way to quote the runs. -/
theorem unique {out' : List Char} (h : Quoted flagged i s out) (h' : Quoted flagged i s out') :
    out' = out := by
  induction h generalizing out' with
  | done =>
    cases h' with
    | done => rfl
    | run _ hne _ => exact absurd rfl hne
  | skip hnot _ ih =>
    cases h' with
    | skip _ h' => rw [ih h']
    | run hi _ _ => exact absurd hi hnot
  | run hi hne _ ih =>
    cases h' with
    | done => exact absurd rfl hne
    | skip hnot _ => exact absurd hi hnot
    | run _ _ h' => rw [ih h']

end Quoted

/-- The text without its double quotes. -/
def unquoted (s : List Char) : List Char := s.filter (· ≠ '"')

theorem unquoted_append (s t : List Char) : unquoted (s ++ t) = unquoted s ++ unquoted t :=
  List.filter_append s t

theorem unquoted_of_not_mem {s : List Char} (h : '"' ∉ s) : unquoted s = s := by
  rw [unquoted, List.filter_eq_self]
  intro c hc
  simpa using fun heq : c = '"' => h (heq ▸ hc)

/-- The character that stands at `p` once the quotes are deleted stands between two quotes
that belong together: an even number of quotes precedes them, and none is between them. -/
def InQuotes (out : List Char) (p : Nat) : Prop :=
  ∃ front inner back, out = front ++ '"' :: inner ++ '"' :: back ∧ front.count '"' % 2 = 0 ∧
    '"' ∉ inner ∧ (unquoted front).length ≤ p ∧ p < (unquoted front).length + inner.length

theorem InQuotes.append {out : List Char} {p : Nat} (h : InQuotes out p) {pre : List Char}
    (hpre : pre.count '"' % 2 = 0) : InQuotes (pre ++ out) ((unquoted pre).length + p) := by
  obtain ⟨front, inner, back, rfl, hcount, hinner, hle, hlt⟩ := h
  refine ⟨pre ++ front, inner, back, by simp, ?_, hinner, ?_, ?_⟩
  · rw [List.count_append]
    omega
  · rw [unquoted_append, List.length_append]
    omega
  · rw [unquoted_append, List.length_append]
    omega

/-- Deleting the quotes gives the row back. -/
theorem Quoted.unquoted_eq {flagged : Nat → Prop} {i : Nat} {s out : List Char}
    (h : Quoted flagged i s out) (hquote : '"' ∉ s) : unquoted out = s := by
  induction h with
  | done => rfl
  | @skip i c s out _ _ ih =>
    rw [List.mem_cons, not_or] at hquote
    have hc : unquoted [c] = [c] := unquoted_of_not_mem (by simpa using hquote.1)
    rw [← List.singleton_append, unquoted_append, hc, ih hquote.2]
    rfl
  | @run i s out _ _ _ ih =>
    rw [← List.takeWhile_append_dropWhile (p := inRun) (l := s), List.mem_append, not_or] at hquote
    have hmarks (run : List Char) :
        unquoted ('"' :: run ++ '"' :: out) = unquoted run ++ unquoted out := by
      simp [unquoted]
    rw [hmarks, unquoted_of_not_mem hquote.1, ih hquote.2, List.takeWhile_append_dropWhile]

/-- Every flagged position ends up between quotes. -/
theorem Quoted.inQuotes {flagged : Nat → Prop} {i : Nat} {s out : List Char}
    (h : Quoted flagged i s out) (hquote : '"' ∉ s) {p : Nat} (hp : flagged p) (hle : i ≤ p)
    (hlt : p < i + s.length) : InQuotes out (p - i) := by
  induction h with
  | done => exact absurd hlt (by simp; omega)
  | @skip i c s out hnot _ ih =>
    rw [List.mem_cons, not_or] at hquote
    rw [List.length_cons] at hlt
    have hne : p ≠ i := fun heq => hnot (heq ▸ hp)
    have hc : '"' ∉ [c] := by simpa using hquote.1
    have hcount : [c].count '"' % 2 = 0 := by rw [List.count_eq_zero_of_not_mem hc]
    have hin := (ih hquote.2 (by omega) (by omega)).append hcount
    rw [unquoted_of_not_mem hc, List.length_singleton] at hin
    rwa [show p - i = 1 + (p - (i + 1)) by omega]
  | @run i s out _ _ _ ih =>
    have hlength := congrArg List.length (List.takeWhile_append_dropWhile (p := inRun) (l := s))
    rw [List.length_append] at hlength
    rw [← List.takeWhile_append_dropWhile (p := inRun) (l := s), List.mem_append, not_or] at hquote
    generalize s.takeWhile inRun = run at *
    by_cases hinside : p < i + run.length
    · refine ⟨[], run, out, rfl, rfl, hquote.1, Nat.zero_le _, ?_⟩
      simp only [unquoted, List.filter_nil, List.length_nil]
      omega
    · have hcount : ('"' :: run ++ ['"']).count '"' % 2 = 0 := by
        simp [List.count_eq_zero_of_not_mem hquote.1]
      have hmarks : unquoted ('"' :: run ++ ['"']) = run := by
        rw [← unquoted_of_not_mem hquote.1]
        simp [unquoted]
      have hin := (ih hquote.2 (by omega) (by omega)).append hcount
      rw [hmarks, List.append_assoc, List.singleton_append] at hin
      rwa [show p - i = run.length + (p - (i + run.length)) by omega]

/-! ## Repairing one row -/

/-- The run of characters at a place. -/
def runAt (s : List Char) (k : Nat) : List Char := (s.drop k).takeWhile inRun

/-- What stands behind the run at a place. -/
def behindRun (s : List Char) (k : Nat) : List Char := (s.drop k).dropWhile inRun

theorem take_append_runAt (s : List Char) (k : Nat) :
    s.take k ++ (runAt s k ++ behindRun s k) = s := by
  rw [runAt, behindRun, List.takeWhile_append_dropWhile, List.take_append_drop]

theorem behindRun_eq_drop (s : List Char) (k : Nat) :
    behindRun s k = (s.drop k).drop (runAt s k).length := by
  have hdrop := List.prefix_iff_eq_append.1 (List.takeWhile_prefix inRun (l := s.drop k))
  exact List.append_cancel_left (List.takeWhile_append_dropWhile.trans hdrop.symm)

theorem inRun_of_mem_runAt {s : List Char} {k : Nat} {c : Char} (h : c ∈ runAt s k) :
    inRun c = true :=
  List.mem_takeWhile_imp h

theorem inRun_head_behindRun {s : List Char} {k : Nat} {c : Char}
    (h : (behindRun s k).head? = some c) : inRun c = false := by
  have hnot := List.head?_dropWhile_not inRun (s.drop k)
  rw [behindRun] at h
  rw [h] at hnot
  exact hnot

/-! ### Variables and runs -/

theorem VariableAt.drop {s : List Char} {k n : Nat} (h : VariableAt s k) (hn : n ≤ k) :
    VariableAt (s.drop n) (k - n) := by
  obtain ⟨hdollar, c, hc, hname⟩ := h
  have hnext : n + (k - n + 1) = k + 1 := by omega
  refine ⟨?_, c, ?_, hname⟩
  · rw [List.getElem?_drop, Nat.add_sub_cancel' hn, hdollar]
  · rw [List.getElem?_drop, hnext, hc]

theorem VariableAt.runAt_ne_nil {s : List Char} {k : Nat} (h : VariableAt s k) :
    runAt s k ≠ [] := by
  intro hnil
  have hhead : (behindRun s k).head? = some '$' := by
    rw [behindRun_eq_drop, hnil, List.length_nil, List.drop_zero, List.head?_drop, h.1]
  exact absurd (inRun_head_behindRun hhead) (by decide)

/-- A variable in a run has a character of the run behind its dollar sign. -/
theorem VariableAt.lt_run {s : List Char} {i k : Nat} (h : VariableAt s (k + i))
    (hi : i < (runAt s k).length) : i + 1 < (runAt s k).length := by
  obtain ⟨-, c, hc, hname⟩ := h
  by_contra hle
  have hlast : (runAt s k).length = i + 1 := by omega
  have hhead : (behindRun s k).head? = some c := by
    rw [behindRun_eq_drop, List.head?_drop, List.getElem?_drop, hlast, ← Nat.add_assoc, hc]
  exact absurd (inRun_of_nameChar hname) (by rw [inRun_head_behindRun hhead]; decide)

/-! ### The remedy -/

theorem variableIn_of_check {line : List Char} {column : Int}
    (h : Quoting.check line '"' column (column + 1) = .ok true) :
    variableIn line line column = .ok (line, 0) := by
  simp only [variableIn, h, bind, Except.bind, if_true, pure, Except.pure]

/-- A text up to the end of the run at a place behind a front, the run between quotes. -/
def quotedUpTo (front right : List Char) (k : Nat) : List Char :=
  front ++ (right.take k ++ '"' :: runAt right k ++ ['"'])

theorem length_quotedUpTo (front : List Char) {right : List Char} {k : Nat} (h : k ≤ right.length) :
    (quotedUpTo front right k).length = front.length + k + (runAt right k).length + 2 := by
  simp only [quotedUpTo, List.length_append, List.length_cons, List.length_nil,
    List.length_take_of_le h]
  omega

/-- The line with the run at a place between double quotes. -/
def quotedAt (line : List Char) (k : Nat) : List Char :=
  line.take k ++ '"' :: runAt line k ++ '"' :: behindRun line k

theorem quoteRun_ofNat (line : List Char) (k : Nat) : quoteRun line (k : Int) = quotedAt line k := by
  rw [quotedAt, behindRun_eq_drop]
  simp only [quoteRun, runAt, before_ofNat, after_ofNat]

/-- A dollar sign that is not quoted gets its run quoted, and then the tabs are restored. -/
theorem variableIn_of_unquoted {line : List Char} {k : Nat}
    (hk : (line.drop k).head? = some '$')
    (hcheck : Quoting.check line '"' (k : Int) ((k : Int) + 1) = .ok false) :
    variableIn line line (k : Int) =
      (restoreTabs (tabPosition (k : Int) (runAt line k).length) (line.count '\t')
        (quotedAt line k)).map (·, 2) := by
  have hdollar : dollarAt line (k : Int) = .ok (k : Int) := by
    simp only [dollarAt, at?_ofNat, ← List.head?_drop, hk, if_true]
  simp only [variableIn, hcheck, hdollar, quoteRun_ofNat, after_ofNat, bind, Except.bind, pure, Except.pure,
    Bool.false_eq_true, if_false]
  rw [runAt]
  cases restoreTabs _ _ _ <;> rfl

/-- In a line without tabs there is nothing to restore. -/
theorem variableIn_of_no_tab {line : List Char} {k : Nat}
    (hk : (line.drop k).head? = some '$')
    (hcheck : Quoting.check line '"' (k : Int) ((k : Int) + 1) = .ok false) (htab : '\t' ∉ line) :
    variableIn line line (k : Int) = .ok (quotedAt line k, 2) := by
  rw [variableIn_of_unquoted hk hcheck, List.count_eq_zero_of_not_mem htab]
  rfl

/-- A dollar sign with no quote behind it gets its run quoted. -/
theorem variableIn_behind (front : List Char) {right : List Char} (h : '"' ∉ right)
    (htab : '\t' ∉ front ++ right) {k : Nat} (hk : right[k]? = some '$') :
    variableIn (front ++ right) (front ++ right) ((front.length + k : Nat) : Int) =
      .ok (quotedUpTo front right k ++ behindRun right k, 2) := by
  obtain ⟨hlt, -⟩ := List.getElem?_eq_some_iff.1 hk
  have hat : ((front ++ right).drop (front.length + k)).head? = some '$' := by
    rw [List.drop_length_add_append, List.head?_drop, hk]
  rw [variableIn_of_no_tab hat (Quoting.check_behind front h (Nat.le_of_lt hlt)) htab]
  simp only [quotedAt, quotedUpTo, runAt, behindRun, List.take_length_add_append,
    List.drop_length_add_append, List.append_assoc, List.cons_append, List.nil_append]

theorem not_mem_quotedUpTo {c : Char} {front right : List Char} {k : Nat} (hc : c ≠ '"')
    (h : c ∉ front ++ right) : c ∉ quotedUpTo front right k ++ behindRun right k := by
  rw [← take_append_runAt right k] at h
  simp only [quotedUpTo, List.mem_append, List.mem_cons, List.not_mem_nil, or_false] at h ⊢
  tauto

theorem not_mem_behindRun {c : Char} {right : List Char} {k : Nat} (h : c ∉ right) :
    c ∉ behindRun right k := by
  rw [← take_append_runAt right k, List.mem_append, List.mem_append, not_or, not_or] at h
  exact h.2.2

/-! ### The findings of a row -/

/-- A column that a finding has, counted from zero. -/
def Flagged (fs : List Finding) (p : Nat) : Prop := ∃ f ∈ fs, f.column = some ((p : Int) + 1)

theorem flagged_cons {f : Finding} {fs : List Finding} {p : Nat}
    (hcolumn : f.column = some ((p : Int) + 1)) (q : Nat) :
    Flagged (f :: fs) q ↔ q = p ∨ Flagged fs q := by
  have hsame : f.column = some ((q : Int) + 1) ↔ q = p := by
    rw [hcolumn, Option.some.injEq]
    omega
  simp only [Flagged, List.exists_mem_cons_iff, hsame]

/-- Where a column of the row is met again in a line that has grown by `added` characters: the
line is a front that stands for the row before `base`, and what follows unchanged. A column
before `base` is found to be quoted, any other is a variable that is not. -/
def Met (front right : List Char) (base added p : Nat) : Prop :=
  (p < base ∧ Quoting.check (front ++ right) '"' ((p + added : Nat) : Int)
      ((p + added : Nat) + 1 : Int) = .ok true) ∨
    (base ≤ p ∧ VariableAt right (p - base))

/-- Once the run at a column is quoted, every later column is met again. -/
theorem Met.after_run {front right : List Char} {base added k q : Nat}
    (hlength : front.length = base + added) (hk : k ≤ right.length) (hq : base + k ≤ q)
    (h : Met front right base added q) :
    Met (quotedUpTo front right k) (behindRun right k) (base + k + (runAt right k).length)
      (added + 2) q := by
  obtain ⟨i, rfl⟩ : ∃ i, q = base + k + i := ⟨q - (base + k), by omega⟩
  have hvar : VariableAt right (k + i) := by
    rcases h with ⟨hlt, -⟩ | ⟨-, hvar⟩
    · omega
    · rwa [Nat.add_assoc, Nat.add_sub_cancel_left] at hvar
  by_cases hin : i < (runAt right k).length
  · have hinside := Quoting.check_inside (front ++ right.take k) (behindRun right k)
      (fun hc => absurd (inRun_of_mem_runAt hc) (by decide))
      (fun hc => absurd (inRun_of_mem_runAt hc) (by decide)) (hvar.lt_run hin)
    have hcolumn : (front ++ right.take k).length + i + 2 = base + k + i + (added + 2) := by
      rw [List.length_append, List.length_take_of_le hk]
      omega
    rw [hcolumn] at hinside
    exact .inl ⟨by omega, by simpa [quotedUpTo] using hinside⟩
  · have hrest := hvar.drop (show k + (runAt right k).length ≤ k + i by omega)
    have hplace : base + k + i - (base + k + (runAt right k).length) =
        k + i - (k + (runAt right k).length) := by omega
    rw [← List.drop_drop, ← behindRun_eq_drop, ← hplace] at hrest
    exact .inr ⟨by omega, hrest⟩

/-- The quoted run of the first finding, before what the others make of the rest. -/
theorem Quoted.first_run {f : Finding} {fs : List Finding} {right out : List Char} {base k : Nat}
    (hcolumn : f.column = some (((base + k : Nat) : Int) + 1))
    (hlater : ∀ q, Flagged fs q → base + k ≤ q) (hvar : VariableAt right k)
    (hout : Quoted (Flagged fs) (base + k + (runAt right k).length) (behindRun right k) out) :
    Quoted (Flagged (f :: fs)) base right
      (right.take k ++ ('"' :: runAt right k ++ '"' :: out)) := by
  obtain ⟨hlt, -⟩ := List.getElem?_eq_some_iff.1 hvar.1
  have htake : (right.take k).length = k := List.length_take_of_le (Nat.le_of_lt hlt)
  have hpos : 0 < (runAt right k).length := List.length_pos_of_ne_nil hvar.runAt_ne_nil
  have hrun : Quoted (Flagged (f :: fs)) (base + k) (right.drop k)
      ('"' :: runAt right k ++ '"' :: out) := by
    refine .run ((flagged_cons hcolumn _).2 (.inl rfl)) hvar.runAt_ne_nil
      (hout.congr fun q hq => ?_)
    rw [flagged_cons hcolumn]
    exact ⟨.inr, fun h => h.resolve_left (by omega)⟩
  have hskip : ∀ q, base ≤ q → q < base + (right.take k).length → ¬ Flagged (f :: fs) q := by
    intro q _ hq hflag
    rw [htake] at hq
    rcases (flagged_cons hcolumn q).1 hflag with rfl | hflag
    · omega
    · have := hlater q hflag
      omega
  have hquoted := Quoted.skips hskip (by rwa [htake])
  rwa [List.take_append_drop] at hquoted

/-- The run over the findings of a row, in the order of their columns. What has been quoted
stands in front, and the flagged columns are met in what follows. -/
theorem repairLine_quoted {fs : List Finding} {front right : List Char} {base added : Nat}
    (hsorted : fs.Pairwise fun f g => f.column.getD 0 ≤ g.column.getD 0)
    (hdescription : ∀ f ∈ fs, f.description = Wording.unquotedVariable)
    (hlength : front.length = base + added) (hquote : '"' ∉ right) (htab : '\t' ∉ front ++ right)
    (hmet : ∀ f ∈ fs, ∃ p : Nat, f.column = some ((p : Int) + 1) ∧ Met front right base added p) :
    ∃ out, repairLine (front ++ right) added fs = .ok (front ++ out) ∧
      Quoted (Flagged fs) base right out := by
  induction fs generalizing front right base added with
  | nil =>
    have hnone (p : Nat) : ¬ Flagged [] p := fun ⟨_, hf, _⟩ => List.not_mem_nil hf
    have hskip : Quoted (Flagged []) base (right ++ []) (right ++ []) :=
      Quoted.skips (fun p _ _ => hnone p) .done
    rw [List.append_nil] at hskip
    exact ⟨right, rfl, hskip⟩
  | cons f fs ih =>
    obtain ⟨hfirst, hsorted⟩ := List.pairwise_cons.1 hsorted
    obtain ⟨hf, hdescription⟩ := List.forall_mem_cons.1 hdescription
    obtain ⟨⟨p, hcolumn, hp⟩, hmet⟩ := List.forall_mem_cons.1 hmet
    have hremedy : Remedy.ofDescription? f.description = some .quoteVariable := by
      rw [hf]
      rfl
    have hcast : ((added : Int) + ((p : Int) + 1) - 1) = ((p + added : Nat) : Int) := by omega
    have hlater (q : Nat) (hq : Flagged fs q) : p ≤ q := by
      obtain ⟨g, hg, hgcolumn⟩ := hq
      have hle := hfirst g hg
      rw [hcolumn, hgcolumn, Option.getD_some, Option.getD_some] at hle
      omega
    rcases hp with ⟨hlt, hcheck⟩ | ⟨hle, hvar⟩
    · -- The variable stands in the run quoted last: the line stays as it is.
      obtain ⟨out, hrun, hout⟩ := ih hsorted hdescription hlength hquote htab hmet
      refine ⟨out, ?_, hout.congr fun q hq => ?_⟩
      · rw [repairLine, hremedy]
        simp only [hcolumn, hcast, Remedy.apply, variableIn_of_check hcheck, bind, Except.bind]
        exact hrun
      · rw [flagged_cons hcolumn]
        exact ⟨.inr, fun h => h.resolve_left (by omega)⟩
    · -- The variable stands behind it: its run is quoted, and becomes the one quoted last.
      obtain ⟨k, rfl⟩ : ∃ k, p = base + k := ⟨p - base, by omega⟩
      rw [Nat.add_sub_cancel_left] at hvar
      obtain ⟨hinside, -⟩ := List.getElem?_eq_some_iff.1 hvar.1
      have hlength' : (quotedUpTo front right k).length =
          base + k + (runAt right k).length + (added + 2) := by
        rw [length_quotedUpTo front (Nat.le_of_lt hinside)]
        omega
      have hmet' : ∀ g ∈ fs, ∃ q : Nat, g.column = some ((q : Int) + 1) ∧
          Met (quotedUpTo front right k) (behindRun right k)
            (base + k + (runAt right k).length) (added + 2) q := by
        intro g hg
        obtain ⟨q, hq, hqmet⟩ := hmet g hg
        exact ⟨q, hq, hqmet.after_run hlength (Nat.le_of_lt hinside) (hlater q ⟨g, hg, hq⟩)⟩
      obtain ⟨out, hrun, hout⟩ := ih hsorted hdescription hlength' (not_mem_behindRun hquote)
        (not_mem_quotedUpTo (by decide) htab) hmet'
      refine ⟨_, ?_, hout.first_run hcolumn hlater hvar⟩
      have happly := variableIn_behind front hquote htab hvar.1
      have hplace : front.length + k = base + k + added := by omega
      rw [hplace] at happly
      rw [repairLine, hremedy]
      simp only [hcolumn, hcast, Remedy.apply, happly, bind, Except.bind]
      rw [hrun, quotedUpTo]
      simp

/-! ## Repairing the rows of a script -/

/-- The rows that repairs are made on: those of a text that has been read, or what an earlier
repair has left of them. -/
inductive Held : List String → Prop
  | read (text : String) : Held (rowsOf text)
  | repaired {rows : List String} (fs : List Finding) : Held rows → Held ((all fs).exec rows).2

theorem Held.tabs {rows : List String} (h : Held rows) : ∀ row ∈ rows, '\t' ∉ row.toList := by
  induction h with
  | read text => exact tabs_rowsOf text
  | repaired fs _ ih => exact (all_kept ih fs).tabs ih

/-- Findings that are all about one line are repaired by the repair of its row. -/
theorem all_of_line {fs : List Finding} {index : Int} (hne : fs ≠ [])
    (h : ∀ f ∈ fs, f.line - 1 = index) : all fs = repairRow index fs := by
  have hfilter : fs.filter (·.line - 1 = index) = fs := by
    rw [List.filter_eq_self]
    exact fun f hf => decide_eq_true (h f hf)
  have hindices : (fs.map (·.line - 1)).eraseDups = [index] := by
    obtain ⟨f, rest, rfl⟩ := List.exists_cons_of_ne_nil hne
    obtain ⟨hf, hrest⟩ := List.forall_mem_cons.1 h
    have hothers : (rest.map (·.line - 1)).filter (fun j => !j == index) = [] := by
      rw [List.filter_eq_nil_iff]
      intro j hj
      obtain ⟨g, hg, rfl⟩ := List.mem_map.1 hj
      simp [hrest g hg]
    rw [List.map_cons, hf, List.eraseDups_cons, hothers]
    rfl
  rw [all, hindices, repairRows, hfilter]
  exact bind_pure_unit

/-- The findings of a row with columns are put in the order of these. -/
theorem inOrder_sorted {fs : List Finding} (h : ∀ f ∈ fs, f.column.isSome = true) :
    ∃ sorted, inOrder fs = .ok sorted ∧ sorted.Perm fs ∧
      sorted.Pairwise fun f g => f.column.getD 0 ≤ g.column.getD 0 := by
  have hany : fs.any (·.column.isNone) = false := by
    rw [List.any_eq_false]
    intro f hf
    simpa using Option.isSome_iff_ne_none.1 (h f hf)
  let le (f g : Finding) : Bool := f.column.getD 0 ≤ g.column.getD 0
  have htrans : ∀ f g k : Finding, le f g = true → le g k = true → le f k = true := by
    simp only [le, decide_eq_true_eq]
    omega
  have htotal : ∀ f g : Finding, (le f g || le g f) = true := by
    simp only [le, Bool.or_eq_true, decide_eq_true_eq]
    omega
  refine ⟨fs.mergeSort le, ?_, List.mergeSort_perm fs le, ?_⟩
  · rw [inOrder, if_neg (by simp [hany])]
  · simpa [le] using List.pairwise_mergeSort htrans htotal fs

/-- Findings about one row without double quotes, each at a dollar sign with a name character
behind it, in any order and any number. The run at each of them that does not lie in the run of
an earlier one is put between quotes, and all else stays as it is. So each of them ends up
between quotes, and without the quotes the row is the old one. -/
theorem all_quotes_variables {rows : List String} (hheld : Held rows) {i : Nat} {row : String}
    (hrow : rows[i]? = some row) (hquote : '"' ∉ row.toList) {fs : List Finding}
    (hfs : ∀ f ∈ fs, f.line = (i : Int) + 1 ∧ f.description = Wording.unquotedVariable ∧
      ∃ p : Nat, f.column = some ((p : Int) + 1) ∧ VariableAt row.toList p) :
    ∃ out, (all fs).exec rows = (.ok (), rows.set i (String.ofList out)) ∧
      (∀ out', Quoted (Flagged fs) 0 row.toList out' ↔ out' = out) ∧
      unquoted out = row.toList ∧ ∀ p, Flagged fs p → InQuotes out p := by
  have hcolumns : ∀ f ∈ fs, f.column.isSome = true := by
    intro f hf
    obtain ⟨-, -, p, hp, -⟩ := hfs f hf
    rw [hp]
    rfl
  obtain ⟨sorted, hsorted, hperm, hpairwise⟩ := inOrder_sorted hcolumns
  have hmet : ∀ f ∈ sorted, ∃ p : Nat, f.column = some ((p : Int) + 1) ∧
      Met [] row.toList 0 0 p := by
    intro f hf
    obtain ⟨-, -, p, hp, hvar⟩ := hfs f (hperm.mem_iff.1 hf)
    exact ⟨p, hp, .inr ⟨Nat.zero_le p, hvar⟩⟩
  obtain ⟨out, hrepair, hout⟩ := repairLine_quoted hpairwise
    (fun f hf => (hfs f (hperm.mem_iff.1 hf)).2.1) rfl hquote
    (hheld.tabs row (List.mem_of_getElem? hrow)) hmet
  have hflagged (p : Nat) : Flagged sorted p ↔ Flagged fs p := by
    simp only [Flagged, hperm.mem_iff]
  have hquoted := hout.congr fun p _ => hflagged p
  have hunique (out' : List Char) : Quoted (Flagged fs) 0 row.toList out' ↔ out' = out :=
    ⟨hquoted.unique, fun h => h ▸ hquoted⟩
  refine ⟨out, ?_, hunique, hquoted.unquoted_eq hquote, fun p hp => ?_⟩
  · by_cases hne : fs = []
    · subst hne
      cases hperm.eq_nil
      have hsame : row.toList = out := Except.ok.inj hrepair
      obtain ⟨hlt, hget⟩ := List.getElem?_eq_some_iff.1 hrow
      rw [← hsame, String.ofList_toList, ← hget, List.set_getElem_self hlt]
      rfl
    · rw [all_of_line hne fun f hf => by rw [(hfs f hf).1, Int.add_sub_cancel],
        exec_repairRow hsorted (by rw [at?_ofNat, hrow]) hrepair]
      simp [replaceAt]
  · obtain ⟨f, hf, hcolumn⟩ := hp
    obtain ⟨-, -, q, hq, hvar⟩ := hfs f hf
    obtain rfl : q = p := by
      rw [hq, Option.some.injEq] at hcolumn
      omega
    obtain ⟨hlt, -⟩ := List.getElem?_eq_some_iff.1 hvar.1
    exact hquoted.inQuotes hquote ⟨f, hf, hcolumn⟩ (Nat.zero_le q) (by omega)

/-- Two variables in one run and two more, found in no order, one of them twice. -/
theorem all_quotes_variables_unordered :
    let rows := rowsOf "\techo $a$b ($c_1) $@\nls\n"
    let fs := [26, 16, 14, 20, 14].map (Job.unquotedAt 1)
    rows[0]? = some "        echo $a$b ($c_1) $@\n" ∧
      ∃ out, (all fs).exec rows = (.ok (), rows.set 0 (String.ofList out)) ∧
        out = "        echo \"$a$b\" (\"$c_1\") \"$@\"\n".toList ∧ InQuotes out 15 := by
  intro rows fs
  have hrow : rows[0]? = some "        echo $a$b ($c_1) $@\n" := by decide +kernel
  have hone (p : Nat) (c : Char)
      (h : "        echo $a$b ($c_1) $@\n".toList[p]? = some '$' ∧
        "        echo $a$b ($c_1) $@\n".toList[p + 1]? = some c ∧ nameChar c = true) :
      (Job.unquotedAt 1 ((p : Int) + 1)).line = ((0 : Nat) : Int) + 1 ∧
        (Job.unquotedAt 1 ((p : Int) + 1)).description = Wording.unquotedVariable ∧
        ∃ q : Nat, (Job.unquotedAt 1 ((p : Int) + 1)).column = some ((q : Int) + 1) ∧
          VariableAt "        echo $a$b ($c_1) $@\n".toList q :=
    ⟨rfl, rfl, p, rfl, h.1, c, h.2⟩
  have hfs : ∀ f ∈ fs, f.line = ((0 : Nat) : Int) + 1 ∧
      f.description = Wording.unquotedVariable ∧ ∃ q : Nat, f.column = some ((q : Int) + 1) ∧
        VariableAt "        echo $a$b ($c_1) $@\n".toList q := by
    simp only [fs, List.map_cons, List.map_nil, List.forall_mem_cons]
    exact ⟨hone 25 '@' (by decide +kernel), hone 15 'b' (by decide +kernel),
      hone 13 'a' (by decide +kernel), hone 19 'c' (by decide +kernel),
      hone 13 'a' (by decide +kernel), fun _ hf => absurd hf List.not_mem_nil⟩
  have hsorted : inOrder fs = .ok ([14, 14, 16, 20, 26].map (Job.unquotedAt 1)) := by
    simp [fs, inOrder, List.mergeSort, List.MergeSort.Internal.splitInTwo, Job.unquotedAt]
  have hrepaired : repairLine "        echo $a$b ($c_1) $@\n".toList 0
      ([14, 14, 16, 20, 26].map (Job.unquotedAt 1)) =
        .ok "        echo \"$a$b\" (\"$c_1\") \"$@\"\n".toList := by decide +kernel
  obtain ⟨out, hrun, -, -, hin⟩ := all_quotes_variables (.read _) hrow (by decide +kernel) hfs
  refine ⟨hrow, out, hrun, ?_, hin 15 ⟨Job.unquotedAt 1 16, by simp [fs], rfl⟩⟩
  have hexec : (all fs).exec rows = (.ok (), rows.set 0
      (String.ofList "        echo \"$a$b\" (\"$c_1\") \"$@\"\n".toList)) := by
    have hline : ∀ f ∈ fs, f.line - 1 = ((0 : Nat) : Int) := by
      intro f hf
      rw [(hfs f hf).1, Int.add_sub_cancel]
    rw [all_of_line (by simp [fs]) hline,
      exec_repairRow hsorted (by rw [at?_ofNat, hrow]) hrepaired]
    rfl
  have hset := (Prod.mk.inj (hrun.symm.trans hexec)).2
  have hlt : 0 < rows.length := by decide +kernel
  have hfirst : some (String.ofList out) =
      some (String.ofList "        echo \"$a$b\" (\"$c_1\") \"$@\"\n".toList) :=
    calc some (String.ofList out) = (rows.set 0 (String.ofList out))[0]? :=
          (List.getElem?_set_self hlt).symm
      _ = (rows.set 0 _)[0]? := congrArg (·[0]?) hset
      _ = some (String.ofList _) := List.getElem?_set_self hlt
  exact String.ofList_injective (Option.some.inj hfirst)

end Repair

end ShellAudit
