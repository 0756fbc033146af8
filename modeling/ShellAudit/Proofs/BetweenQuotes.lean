-- SUMMARY: A span counts as quoted wherever quotes stand on both sides of it.
import ShellAudit.Proofs.QuotedExpansions

/-!
# Between quotes

Whether a place in a line is inside quotes depends on how many quotes stand before it: the first
opens, the second closes, and so on. The check of a span does not count them. It asks for a quote
before the span and one behind it, so a span that stands between two quoted words counts as quoted
as well. The check of uses does not report it then, and the repair leaves it as it is. In which
lines this cannot happen is decided by the quotes that close: another quote may follow one of them
only if it stands directly before a command substitution.
-/

namespace ShellAudit

theorem exists_last_of_mem {c : Char} {s : List Char} (h : c ∈ s) :
    ∃ front inner, s = front ++ c :: inner ∧ c ∉ inner := by
  obtain ⟨inner, front, hsplit, hinner⟩ := List.eq_append_cons_of_mem (List.mem_reverse.2 h)
  refine ⟨front.reverse, inner.reverse, ?_, fun hmem => hinner (List.mem_reverse.1 hmem)⟩
  rw [← List.reverse_reverse s, hsplit]
  simp

namespace Quoting

/-- Quotes stand before a span and behind it, and the last one before it does not open a command
substitution. -/
def Between (line : List Char) (quote : Char) (start stop : Nat) : Prop :=
  ∃ front inner, line.take start = front ++ quote :: inner ∧ quote ∉ inner ∧
    quote ∈ line.drop stop ∧ ¬(quote = '"' ∧ ['$', '('] <+: line.drop (front.length + 1))

theorem closes_ofNat (line : List Char) (quote : Char) (stop : Nat) :
    closes line quote (stop : Int) = .ok ((line.drop stop).contains quote) := by
  rw [closes, if_pos (Int.natCast_nonneg stop), Int.toNat_natCast]

section

variable {line : List Char} {quote : Char} {start : Nat} (hstart : start ≤ line.length) (stop : Nat)

include hstart

theorem opening?_ofNat :
    opening? line quote (start : Int) = .ok (Text.findLast? [quote] (line.take start)) := by
  unfold opening?
  split
  · obtain rfl : start = 0 := by omega
    rfl
  · rw [if_neg (by omega), Int.toNat_natCast]

theorem check_of_no_quote (h : quote ∉ line.take start) :
    check line quote (start : Int) (stop : Int) = .ok false := by
  simp only [check, opening?_ofNat hstart, Text.findLast?_of_not_mem h, closes_ofNat, bind,
    Except.bind]
  split <;> rfl

theorem check_of_last {front inner : List Char} (hlast : line.take start = front ++ quote :: inner)
    (hinner : quote ∉ inner) :
    check line quote (start : Int) (stop : Int) =
      .ok (if quote = '"' ∧ ['$', '('] <+: line.drop (front.length + 1) then false
        else (line.drop stop).contains quote) := by
  have hsubst : (line.drop (front.length + 1)).take 2 = ['$', '('] ↔
      ['$', '('] <+: line.drop (front.length + 1) := by
    rw [List.prefix_iff_eq_take, eq_comm]
    rfl
  simp only [check, opening?_ofNat hstart, hlast, Text.findLast?_append_cons front hinner,
    closes_ofNat, hsubst, bind, Except.bind]
  split <;> rfl

/-- The check is whether quotes stand on both sides, however many they are. -/
theorem check_eq_true_iff :
    check line quote (start : Int) (stop : Int) = .ok true ↔ Between line quote start stop := by
  constructor
  · intro hcheck
    by_cases hmem : quote ∈ line.take start
    · obtain ⟨front, inner, hlast, hinner⟩ := exists_last_of_mem hmem
      rw [check_of_last hstart stop hlast hinner] at hcheck
      split at hcheck
      · cases hcheck
      · rename_i hsubst
        exact ⟨front, inner, hlast, hinner, List.contains_iff_mem.1 (Except.ok.inj hcheck), hsubst⟩
    · rw [check_of_no_quote hstart stop hmem] at hcheck
      cases hcheck
  · rintro ⟨front, inner, hlast, hinner, hbehind, hsubst⟩
    rw [check_of_last hstart stop hlast hinner, if_neg hsubst, List.contains_iff_mem.2 hbehind]

end

/-! ## Counting quotes -/

/-- Every quote that closes a word and has another quote behind it stands directly before a command
substitution, and is a double quote. A quote closes a word if it is the second, the fourth, and so
on, of its line. -/
def ClosedApart (line : List Char) (quote : Char) : Prop :=
  ∀ front rest, line = front ++ quote :: rest → front.count quote % 2 = 1 → quote ∈ rest →
    quote = '"' ∧ ['$', '('] <+: rest

theorem count_take_of_last {line front inner : List Char} {quote : Char} {start : Nat}
    (hlast : line.take start = front ++ quote :: inner) (hinner : quote ∉ inner) :
    (line.take start).count quote = front.count quote + 1 := by
  rw [hlast, List.count_append, List.count_cons_self, List.count_eq_zero_of_not_mem hinner]

/-- The spans that stand between quotes are inside quotes exactly in a line of this kind. -/
theorem between_odd_iff (line : List Char) (quote : Char) :
    (∀ start stop : Nat, start ≤ stop → stop ≤ line.length → Between line quote start stop →
        (line.take start).count quote % 2 = 1) ↔ ClosedApart line quote := by
  constructor
  · intro hodd front rest hline hcount hbehind
    by_contra hsubst
    -- The empty span behind the quote that closes stands between quotes.
    have htake : line.take (front.length + 1) = front ++ quote :: [] := by
      rw [hline, List.take_length_add_append]
      rfl
    have hdrop : line.drop (front.length + 1) = rest := by
      rw [hline, List.drop_length_add_append]
      rfl
    have hlength : front.length + 1 ≤ line.length := by
      rw [hline, List.length_append, List.length_cons]
      omega
    have hbetween : Between line quote (front.length + 1) (front.length + 1) :=
      ⟨front, [], htake, List.not_mem_nil, by rwa [hdrop], by rwa [hdrop]⟩
    have heven := hodd _ _ (Nat.le_refl _) hlength hbetween
    rw [count_take_of_last htake List.not_mem_nil] at heven
    omega
  · rintro hapart start stop hle - ⟨front, inner, hlast, hinner, hbehind, hsubst⟩
    rw [count_take_of_last hlast hinner]
    by_contra heven
    have hline : line = front ++ quote :: (inner ++ line.drop start) := by
      rw [← List.cons_append, ← List.append_assoc, ← hlast, List.take_append_drop]
    have hrest : line.drop (front.length + 1) = inner ++ line.drop start := by
      conv_lhs => rw [hline, List.drop_length_add_append]
      rfl
    refine hsubst (hrest ▸ hapart front _ hline (by omega) (List.mem_append_right inner ?_))
    have hdrop : line.drop stop = (line.drop start).drop (stop - start) := by
      rw [List.drop_drop, Nat.add_sub_cancel' hle]
    rw [hdrop] at hbehind
    exact List.mem_of_mem_drop hbehind

end Quoting

/-! ## The check of uses -/

namespace Check

open Quoting (Between)

/-- A use stands between quotes of either kind. -/
def UseBetween (line : List Char) (use : Use) (k : Nat) : Prop :=
  Between line '"' k (k + use.name.length) ∨ Between line '\x27' k (k + use.name.length)

variable {use : Use} {line : List Char} {k : Nat}

theorem isQuoted_iff_between {lines : List String} (hline : lineAt lines use.line = .ok line)
    (hcolumn : use.column = k) (hk : k ≤ line.length) :
    ∃ quoted, isQuoted lines use = .ok quoted ∧ (quoted = true ↔ UseBetween line use k) := by
  have hstop : (k : Int) + use.name.length = ((k + use.name.length : Nat) : Int) := by omega
  obtain ⟨doubly, hdoubly⟩ := @Quoting.check_returns line '"' k (k + use.name.length) hk
  obtain ⟨singly, hsingly⟩ := @Quoting.check_returns line '\x27' k (k + use.name.length) hk
  have hdoubly_iff := @Quoting.check_eq_true_iff line '"' k hk (k + use.name.length)
  have hsingly_iff := @Quoting.check_eq_true_iff line '\x27' k hk (k + use.name.length)
  rw [hdoubly, Except.ok.injEq] at hdoubly_iff
  rw [hsingly, Except.ok.injEq] at hsingly_iff
  refine ⟨doubly || singly, ?_, ?_⟩
  · simp only [isQuoted, hline, hcolumn, hstop, hdoubly, hsingly, bind, Except.bind]
    cases doubly <;> rfl
  · rw [Bool.or_eq_true, hdoubly_iff, hsingly_iff, UseBetween]

theorem unquoted_returns (script : Script) (row column : Int) (content : List Char) :
    ∃ f, unquoted script row column content = .ok f := by
  unfold unquoted Finding.place
  simp only
  split <;> exact ⟨_, rfl⟩

/-- A use is reported unless it is the name of the script, starts its line, or stands between
quotes. -/
theorem unquotedUse_silent_iff {script : Script} (hline : lineAt script.lines use.line = .ok line)
    (hcolumn : use.column = k) (hk : k ≤ line.length) :
    ∃ found, unquotedUse script use = .ok found ∧
      (found = [] ↔ bareName use.name = ['0'] ∨ startsLine script.lines use = .ok true ∨
        UseBetween line use k) := by
  obtain ⟨starts, hstarts⟩ := startsLine_returns hline
  obtain ⟨quoted, hquoted, hbetween⟩ := isQuoted_iff_between hline hcolumn hk
  obtain ⟨f, hf⟩ := unquoted_returns script use.line use.column line
  rw [hstarts, Except.ok.injEq, ← hbetween]
  by_cases hname : bareName use.name = ['0']
  · exact ⟨[], by rw [unquotedUse, if_pos hname], iff_of_true rfl (.inl hname)⟩
  · cases quoted with
    | true => exact ⟨[], unquotedUse_of_isQuoted hline hquoted, by simp⟩
    | false =>
      simp only [unquotedUse, hname, hstarts, hquoted, hline, hf, bind, Except.bind, if_false]
      cases starts with
      | true => exact ⟨[], rfl, by simp⟩
      | false => exact ⟨[f], rfl, by simp⟩

end Check

/-! ## The repair of variables -/

namespace Repair

/-- The repair leaves a line as it is exactly at the columns that stand between double quotes. -/
theorem variableIn_unchanged_iff {line : List Char} {k : Nat} (hk : k < line.length) :
    variableIn line line (k : Int) = .ok (line, 0) ↔ Quoting.Between line '"' k (k + 1) := by
  have hcast : ((k : Int) + 1) = ((k + 1 : Nat) : Int) := by omega
  rw [← Quoting.check_eq_true_iff (Nat.le_of_lt hk), ← hcast]
  refine ⟨fun hsame => ?_, variableIn_of_check⟩
  obtain ⟨quoted, hquoted⟩ := @Quoting.check_returns line '"' k (k + 1) (Nat.le_of_lt hk)
  rw [← hcast] at hquoted
  cases quoted with
  | true => exact hquoted
  | false =>
    simp only [variableIn, hquoted, bind, Except.bind, pure, Except.pure, Bool.false_eq_true,
      if_false] at hsame
    cases hdollar : dollarAt line (k : Int) with
    | error fault =>
      rw [hdollar] at hsame
      cases hsame
    | ok dollar =>
      simp only [hdollar] at hsame
      split at hsame
      · cases hsame
      · cases hsame

end Repair

namespace Quoting

/-- A span inside a line counts as quoted exactly if it stands between quotes, so in some lines
spans outside of quotes do. A use that stands between quotes is not reported, and the repair of a
variable does nothing there. -/
theorem quoted_iff_between (line : List Char) (quote : Char) :
    (∀ start stop : Nat, start ≤ stop → stop ≤ line.length →
      (∃ quoted, check line quote start stop = .ok quoted) ∧
        (check line quote start stop = .ok true ↔ Between line quote start stop)) ∧
    ((∀ start stop : Nat, start ≤ stop → stop ≤ line.length →
        check line quote start stop = .ok true → (line.take start).count quote % 2 = 1) ↔
      ClosedApart line quote) ∧
    (∀ (script : Script) (use : Use) (k : Nat), Check.lineAt script.lines use.line = .ok line →
      use.column = k → k + use.name.length ≤ line.length →
      ∃ found, Check.unquotedUse script use = .ok found ∧
        (found = [] ↔ Check.bareName use.name = ['0'] ∨
          Check.startsLine script.lines use = .ok true ∨ Check.UseBetween line use k)) ∧
    ∀ k : Nat, k < line.length →
      (Repair.variableIn line line k = .ok (line, 0) ↔ Between line '"' k (k + 1)) := by
  refine ⟨fun start stop hle hstop => ?_, ?_, fun script use k hline hcolumn hk => ?_,
    fun k hk => Repair.variableIn_unchanged_iff hk⟩
  · have hstart : start ≤ line.length := Nat.le_trans hle hstop
    exact ⟨check_returns line quote hstart, check_eq_true_iff hstart stop⟩
  · rw [← between_odd_iff]
    refine forall₄_congr fun start stop hle hstop => ?_
    rw [check_eq_true_iff (Nat.le_trans hle hstop)]
  · exact Check.unquotedUse_silent_iff hline hcolumn (by omega)

/-- A variable between two words in quotes. -/
def betweenWords : String := "echo \"a\" $x \"b\""

/-- It counts as quoted although two quotes stand before it, and so it is neither reported nor
repaired. -/
theorem unquoted_between_words :
    check betweenWords.toList '"' 9 11 = .ok true ∧
      (betweenWords.toList.take 9).count '"' = 2 ∧
      (Check.unquotedUse (Script.ofText betweenWords) ⟨"$x", 0, 9⟩).toOption.map List.length =
        some 0 ∧
      Repair.variableIn betweenWords.toList betweenWords.toList 9 =
        .ok (betweenWords.toList, 0) := by
  decide +kernel

end Quoting

end ShellAudit
