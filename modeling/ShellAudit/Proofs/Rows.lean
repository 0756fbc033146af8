-- SUMMARY: Rows and lines agree where line feeds alone end lines; tabs are written out row by row.
import Mathlib.Data.List.DropRight
import Mathlib.Data.List.TakeWhile
import ShellAudit.Text.Line
import ShellAudit.Text.Tab

/-!
# Rows, lines and tabs

Where no other separator occurs, the lines of a text are its rows without their line
feeds, so a row and a column mean the same in both. Tab stops are counted from the
start of a row, so writing the tabs out goes row by row.
-/

namespace ShellAudit.Text

/-- Line feeds are all that ends a line of the text. -/
def OnlyFeeds (s : List Char) : Prop := ∀ c ∈ s, isLineBreak c = true → c = '\n'

instance (s : List Char) : Decidable (OnlyFeeds s) :=
  List.decidableBAll (fun c => isLineBreak c = true → c = '\n') s

theorem OnlyFeeds.tail {c : Char} {s : List Char} (h : OnlyFeeds (c :: s)) : OnlyFeeds s :=
  fun d hd => h d (List.mem_cons_of_mem c hd)

/-! ## Rows and lines -/

theorem lines_cons {c : Char} (hc : isLineBreak c = true → c = '\n') (s : List Char) :
    lines (c :: s) = if c = '\n' then [] :: lines s else consFirst c (lines s) := by
  have hreturn : c ≠ '\r' := by
    rintro rfl
    exact absurd (hc (by decide)) (by decide)
  rw [lines]
  · by_cases hfeed : c = '\n'
    · subst hfeed
      rfl
    · rw [if_neg hfeed, if_neg fun hbreak => hfeed (hc hbreak)]
  · exact fun _ hc _ => hreturn hc

/-- A row without the line feed that ends it. -/
def chomp (row : List Char) : List Char := row.takeWhile (· ≠ '\n')

theorem chomp_cons {c : Char} (hc : c ≠ '\n') (row : List Char) :
    chomp (c :: row) = c :: chomp row := by
  simp [chomp, hc]

theorem lines_eq_map_chomp {s : List Char} (h : OnlyFeeds s) : lines s = (rows s).map chomp := by
  induction s with
  | nil => rfl
  | cons c cs ih =>
    rw [lines_cons (h c List.mem_cons_self), rows, ih h.tail]
    split
    · rename_i hc
      subst hc
      rfl
    · rename_i hc
      cases rows cs with
      | nil => simp [consFirst, chomp, hc]
      | cons row rows => simp [consFirst, chomp_cons hc]

/-! ## Places in a text -/

/-- What a text holds behind its last line feed. -/
def rowEnd (s : List Char) : List Char := (s.reverse.takeWhile (· ≠ '\n')).reverse

/-- What stands at the end of a text and satisfies `p` is longer by a character in front of the
text only if all of the text satisfies `p`. -/
theorem rtakeWhile_cons (p : Char → Bool) (c : Char) (s : List Char) :
    (c :: s).rtakeWhile p =
      if p c = true ∧ s.all p = true then c :: s.rtakeWhile p else s.rtakeWhile p := by
  unfold List.rtakeWhile
  rw [List.reverse_cons]
  by_cases hall : s.all p = true
  · have hreverse : ∀ d ∈ s.reverse, p d = true := fun d hd =>
      List.all_eq_true.1 hall d (List.mem_reverse.1 hd)
    rw [List.takeWhile_append_of_pos hreverse, List.takeWhile_eq_self_iff.2 hreverse]
    by_cases hc : p c = true
    · rw [if_pos ⟨hc, hall⟩]
      simp [hc]
    · simp [hc]
  · rw [if_neg fun h => hall h.2, List.takeWhile_append, if_neg]
    intro hlength
    have hself := (List.takeWhile_sublist _).eq_of_length hlength
    rw [List.takeWhile_eq_self_iff] at hself
    exact hall (List.all_eq_true.2 fun d hd => hself d (List.mem_reverse.2 hd))

theorem rowEnd_cons (c : Char) (s : List Char) :
    rowEnd (c :: s) = if c ≠ '\n' ∧ '\n' ∉ s then c :: rowEnd s else rowEnd s := by
  have hnone : s.all (· ≠ '\n') = true ↔ '\n' ∉ s := by
    rw [List.all_eq_true]
    simp only [decide_eq_true_eq]
    exact ⟨fun h hmem => h _ hmem rfl, fun h d hd hfeed => h (hfeed ▸ hd)⟩
  have hcons := rtakeWhile_cons (· ≠ '\n') c s
  simp only [hnone, decide_eq_true_eq] at hcons
  exact hcons

/-- The row that a place is in: as many rows are before it as there are line feeds. It
starts with what stands between the last of them and the place, and goes on from there. -/
theorem getElem?_rows_append (front : List Char) (c : Char) (back : List Char) :
    ∃ more, (rows (front ++ c :: back))[front.count '\n']? = some (rowEnd front ++ c :: more) := by
  induction front with
  | nil =>
    rw [List.nil_append, rows]
    split
    · exact ⟨[], rfl⟩
    · cases rows back <;> exact ⟨_, rfl⟩
  | cons d front ih =>
    obtain ⟨more, hmore⟩ := ih
    refine ⟨more, ?_⟩
    rw [List.cons_append, rows, rowEnd_cons, List.count_cons]
    by_cases hd : d = '\n'
    · simpa [hd] using hmore
    · rw [if_neg hd, if_neg (by simpa using hd), Nat.add_zero]
      cases hrows : rows (front ++ c :: back) with
      | nil =>
        rw [hrows] at hmore
        cases hmore
      | cons row rest =>
        rw [hrows] at hmore
        by_cases hfeed : '\n' ∈ front
        · obtain ⟨k, hk⟩ := Nat.exists_eq_succ_of_ne_zero
            (Nat.ne_of_gt (List.count_pos_iff.2 hfeed))
          rw [hk] at hmore ⊢
          simpa [hfeed, consFirst] using hmore
        · rw [List.count_eq_zero.2 hfeed] at hmore ⊢
          cases hmore
          simp [hd, hfeed, consFirst]

/-! ## Tabs -/

/-- Puts characters in front of the first row. -/
def prependFirst (front : List Char) : List (List Char) → List (List Char)
  | [] => [front]
  | row :: rows => (front ++ row) :: rows

theorem rows_append {front : List Char} (hne : front ≠ []) (hfeed : '\n' ∉ front) (s : List Char) :
    rows (front ++ s) = prependFirst front (rows s) := by
  induction front with
  | nil => exact absurd rfl hne
  | cons c cs ih =>
    rw [List.mem_cons, not_or] at hfeed
    rw [List.cons_append, rows, if_neg (Ne.symm hfeed.1)]
    cases cs with
    | nil => cases h : rows s <;> simp [h, consFirst, prependFirst]
    | cons d ds =>
      rw [ih (List.cons_ne_nil d ds) hfeed.2]
      cases rows s <;> rfl

/-- Writes out the tabs of rows, `column` being the column of the first character. -/
def expandRows (column : Nat) : List (List Char) → List (List Char)
  | [] => []
  | row :: rest => expandTabsFrom column row :: rest.map expandTabs

theorem expandRows_zero (rows : List (List Char)) : expandRows 0 rows = rows.map expandTabs := by
  cases rows <;> rfl

theorem rows_expandTabsFrom (column : Nat) (s : List Char) :
    rows (expandTabsFrom column s) = expandRows column (rows s) := by
  induction s generalizing column with
  | nil => rfl
  | cons c cs ih =>
    by_cases htab : c = '\t'
    · subst htab
      have hgap : List.replicate (tabWidth - column % tabWidth) ' ' ≠ [] := by
        have := Nat.mod_lt column (by decide : 0 < tabWidth)
        rw [Ne, List.replicate_eq_nil_iff]
        omega
      have hfeed : '\n' ∉ List.replicate (tabWidth - column % tabWidth) ' ' :=
        fun h => absurd (List.eq_of_mem_replicate h) (by decide)
      rw [expandTabsFrom, if_pos rfl, rows_append hgap hfeed, ih, rows, if_neg (by decide)]
      cases rows cs <;> simp [consFirst, prependFirst, expandRows, expandTabsFrom]
    · by_cases hfeed : c = '\n'
      · subst hfeed
        rw [expandTabsFrom, if_neg (by decide), if_pos (.inl rfl), rows, rows, ih, expandRows_zero]
        rfl
      · rw [expandTabsFrom, if_neg htab, rows, if_neg hfeed]
        by_cases hreturn : c = '\r'
        · rw [if_pos (.inr hreturn), rows, if_neg hfeed, ih]
          cases rows cs <;> simp [consFirst, expandRows, expandTabsFrom, hreturn]
        · rw [if_neg (not_or.2 ⟨hfeed, hreturn⟩), rows, if_neg hfeed, ih]
          cases rows cs <;> simp [consFirst, expandRows, expandTabsFrom, htab, hfeed, hreturn]

/-- The tabs of a text are written out row by row. -/
theorem rows_expandTabs (s : List Char) : rows (expandTabs s) = (rows s).map expandTabs := by
  rw [expandTabs, rows_expandTabsFrom, expandRows_zero]

end ShellAudit.Text
