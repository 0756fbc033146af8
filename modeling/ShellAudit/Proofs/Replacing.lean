-- SUMMARY: How a name is replaced in a text, and which command substitutions that leaves.
import ShellAudit.Text.Search

/-!
# Replacing

Replacing passes over what shares no character with the needle, and gives back the
text exactly when the needle is not in it or is replaced by itself. It neither makes
nor removes a command substitution as long as needle and new text have no part in one.
-/

namespace ShellAudit.Text

variable {needle new : List Char}

theorem isPrefixOf_cons_of_not_mem (hne : needle ≠ []) {c : Char} (hc : c ∉ needle)
    (cs : List Char) : needle.isPrefixOf (c :: cs) = false := by
  cases needle with
  | nil => exact absurd rfl hne
  | cons d ds =>
    have hcd : d ≠ c := fun h => hc (h ▸ List.mem_cons_self)
    simp [List.isPrefixOf, hcd]

/-- Where the needle stands, its characters are those of the text. -/
theorem mem_of_isPrefixOf_cons (hne : needle ≠ []) {c : Char} {s : List Char}
    (h : needle.isPrefixOf (c :: s) = true) :
    c ∈ needle ∧ ∀ d ∈ s.take (needle.length - 1), d ∈ needle := by
  obtain ⟨d, ds, rfl⟩ := List.exists_cons_of_ne_nil hne
  obtain ⟨rest, hrest⟩ := List.isPrefixOf_iff_prefix.1 h
  rw [List.cons_append] at hrest
  cases hrest
  exact ⟨List.mem_cons_self, fun e he => List.mem_cons_of_mem _ (by simpa using he)⟩

/-- What stands before a text that replacing goes through, without a character of
the needle, stays as it is. -/
theorem replaceFrom_append_left (hne : needle ≠ []) {before : List Char}
    (h : ∀ c ∈ before, c ∉ needle) (s : List Char) :
    replaceFrom needle new 0 (before ++ s) = before ++ replaceFrom needle new 0 s := by
  induction before with
  | nil => rfl
  | cons c before ih =>
    have hc := isPrefixOf_cons_of_not_mem hne (h c List.mem_cons_self) (before ++ s)
    rw [List.cons_append, replaceFrom, hc]
    simp only [Bool.false_eq_true, if_false, List.cons_append]
    rw [ih fun d hd => h d (List.mem_cons_of_mem _ hd)]

/-- A needle that shares no character with what follows ends before it. -/
theorem isPrefixOf_append_right {s after : List Char} (h : ∀ c ∈ after, c ∉ needle) :
    needle.isPrefixOf (s ++ after) = needle.isPrefixOf s := by
  induction s generalizing needle with
  | nil =>
    cases after with
    | nil => rfl
    | cons c after =>
      cases needle with
      | nil => rfl
      | cons d ds =>
        exact isPrefixOf_cons_of_not_mem (List.cons_ne_nil d ds) (h c List.mem_cons_self) after
  | cons c s ih =>
    cases needle with
    | nil => rfl
    | cons d ds =>
      simp only [List.cons_append, List.isPrefixOf]
      rw [ih fun e he => fun hmem => h e he (List.mem_cons_of_mem _ hmem)]

theorem length_le_of_isPrefixOf {s : List Char} (h : needle.isPrefixOf s = true) :
    needle.length ≤ s.length :=
  (List.isPrefixOf_iff_prefix.1 h).length_le

theorem replaceFrom_append_right (hne : needle ≠ []) {after : List Char}
    (h : ∀ c ∈ after, c ∉ needle) {skip : Nat} (s : List Char) (hskip : skip ≤ s.length) :
    replaceFrom needle new skip (s ++ after) = replaceFrom needle new skip s ++ after := by
  induction s generalizing skip with
  | nil =>
    obtain rfl : skip = 0 := Nat.le_zero.1 hskip
    have unchanged :
        replaceFrom needle new 0 (after ++ []) = after ++ replaceFrom needle new 0 [] :=
      replaceFrom_append_left hne h []
    simpa [replaceFrom] using unchanged
  | cons c s ih =>
    cases skip with
    | succ skip => exact ih (Nat.le_of_succ_le_succ hskip)
    | zero =>
      rw [List.cons_append, replaceFrom, replaceFrom, ← List.cons_append, isPrefixOf_append_right h]
      split
      -- The needle ends within the first text, and so does what is passed over.
      · rename_i hprefix
        have hlength := length_le_of_isPrefixOf hprefix
        rw [List.length_cons] at hlength
        rw [ih (by omega), List.append_assoc]
      · rw [ih (Nat.zero_le _), List.cons_append]

/-- A needle that is replaced by itself leaves the text as it is. -/
theorem replaceFrom_self (hne : needle ≠ []) (skip : Nat) (s : List Char) :
    replaceFrom needle needle skip s = s.drop skip := by
  induction s generalizing skip with
  | nil => rw [replaceFrom, List.drop_nil]
  | cons c s ih =>
    cases skip with
    | succ skip => exact ih skip
    | zero =>
      rw [replaceFrom, List.drop_zero]
      split
      · rename_i hprefix
        obtain ⟨rest, hrest⟩ := List.isPrefixOf_iff_prefix.1 hprefix
        obtain ⟨d, ds, rfl⟩ := List.exists_cons_of_ne_nil hne
        rw [List.cons_append] at hrest
        cases hrest
        simp [ih]
      · rw [ih, List.drop_zero]

/-! ## Texts that replacing leaves as they are -/

theorem replaceFrom_eq_drop (skip : Nat) (s : List Char) :
    replaceFrom needle new skip s = replaceFrom needle new 0 (s.drop skip) := by
  induction s generalizing skip with
  | nil => simp [replaceFrom]
  | cons c s ih =>
    cases skip with
    | zero => rfl
    | succ skip => exact ih skip

/-- At the start of a text the needle is replaced, and replacing goes on behind it. -/
theorem replaceFrom_needle_append (hne : needle ≠ []) (rest : List Char) :
    replaceFrom needle new 0 (needle ++ rest) = new ++ replaceFrom needle new 0 rest := by
  obtain ⟨d, ds, rfl⟩ := List.exists_cons_of_ne_nil hne
  have hstarts : (d :: ds).isPrefixOf (d :: (ds ++ rest)) = true :=
    List.isPrefixOf_iff_prefix.2 ⟨rest, rfl⟩
  have hbehind : (ds ++ rest).drop ((d :: ds).length - 1) = rest := List.drop_left
  rw [List.cons_append, replaceFrom, if_pos hstarts, replaceFrom_eq_drop, hbehind]

/-- A needle that is in a text is replaced at its first place, and then behind it. -/
theorem replaceFrom_first (hne : needle ≠ []) {s : List Char} (h : needle <:+: s) :
    ∃ before rest, s = before ++ (needle ++ rest) ∧
      replaceFrom needle new 0 s = before ++ (new ++ replaceFrom needle new 0 rest) := by
  induction s with
  | nil => exact absurd (List.infix_nil.1 h) hne
  | cons c s ih =>
    by_cases hstarts : needle <+: c :: s
    · obtain ⟨rest, hrest⟩ := hstarts
      exact ⟨[], rest, hrest.symm, hrest ▸ replaceFrom_needle_append hne rest⟩
    · obtain ⟨before, rest, rfl, hreplaced⟩ := ih ((List.infix_cons_iff.1 h).resolve_left hstarts)
      refine ⟨c :: before, rest, rfl, ?_⟩
      rw [replaceFrom, if_neg (mt List.isPrefixOf_iff_prefix.1 hstarts), hreplaced]
      rfl

theorem replaceFrom_of_absent {s : List Char} (h : ¬needle <:+: s) :
    replaceFrom needle new 0 s = s := by
  induction s with
  | nil => rfl
  | cons c s ih =>
    have hstarts : ¬needle <+: c :: s := fun hstarts => h hstarts.isInfix
    rw [replaceFrom, if_neg (mt List.isPrefixOf_iff_prefix.1 hstarts),
      ih fun hinside => h (List.infix_cons_iff.2 (.inr hinside))]

/-- A new text that is at least as long as the needle makes nothing shorter. -/
theorem le_length_replaceFrom (hne : needle ≠ []) (hlength : needle.length ≤ new.length)
    (skip : Nat) (s : List Char) :
    s.length - skip ≤ (replaceFrom needle new skip s).length := by
  have hpos := List.length_pos_iff.2 hne
  induction s generalizing skip with
  | nil => simp
  | cons c s ih =>
    cases skip with
    | succ skip => simpa [replaceFrom] using ih skip
    | zero =>
      rw [replaceFrom]
      split
      · have := ih (needle.length - 1)
        simp only [List.length_cons, List.length_append]
        omega
      · have := ih 0
        simp only [List.length_cons]
        omega

/-- A new text that is at most as long as the needle makes nothing longer. -/
theorem length_replaceFrom_le (hne : needle ≠ []) (hlength : new.length ≤ needle.length)
    (skip : Nat) (s : List Char) :
    (replaceFrom needle new skip s).length ≤ s.length - skip := by
  have hpos := List.length_pos_iff.2 hne
  induction s generalizing skip with
  | nil => simp [replaceFrom]
  | cons c s ih =>
    cases skip with
    | succ skip => simpa [replaceFrom] using ih skip
    | zero =>
      rw [replaceFrom]
      split
      · rename_i hstarts
        have hfits := length_le_of_isPrefixOf hstarts
        have := ih (needle.length - 1)
        simp only [List.length_cons, List.length_append] at hfits ⊢
        omega
      · have := ih 0
        simp only [List.length_cons]
        omega

theorem length_le_length_flatMap_cons (new s : List Char) :
    s.length ≤ (s.flatMap fun c => c :: new).length := by
  induction s with
  | nil => exact Nat.le_refl 0
  | cons c s ih =>
    simp only [List.flatMap_cons, List.length_cons, List.length_append]
    omega

/-- Replacing leaves a text as it is exactly if the needle is not in it, or is
replaced by itself. -/
theorem replace_eq_self_iff {s : List Char} :
    replace needle new s = s ↔ needle = new ∨ ¬needle <:+: s := by
  unfold replace
  split
  · rename_i hempty
    subst hempty
    constructor
    · intro h
      have hlength := congrArg List.length h
      have hgrown := length_le_length_flatMap_cons new s
      simp only [List.length_append] at hlength
      exact .inl (List.length_eq_zero_iff.1 (by omega)).symm
    · rintro (rfl | hinfix)
      · simp
      · exact absurd List.nil_infix hinfix
  · rename_i hne
    constructor
    · intro h
      by_cases hinfix : needle <:+: s
      · obtain ⟨before, rest, rfl, hreplaced⟩ := @replaceFrom_first _ new hne _ hinfix
        rw [h, List.append_cancel_left_eq] at hreplaced
        have hlengths := congrArg List.length hreplaced
        have hsame : needle.length = new.length := by
          rw [List.length_append, List.length_append] at hlengths
          rcases Nat.le_total needle.length new.length with hle | hle
          · have := le_length_replaceFrom hne hle 0 rest
            omega
          · have := length_replaceFrom_le hne hle 0 rest
            omega
        exact .inl (List.append_inj hreplaced hsame).1
      · exact .inr hinfix
    · rintro (rfl | hinfix)
      · rw [replaceFrom_self hne, List.drop_zero]
      · exact replaceFrom_of_absent hinfix

/-! ## Command substitutions -/

/-- A command substitution starts somewhere in the text, in one of its two
spellings. -/
def Substitutes (s : List Char) : Prop := ['$', '('] <:+: s ∨ '\x60' ∈ s

theorem not_substitutes_nil : ¬Substitutes [] := by
  simp [Substitutes]

theorem substitutes_cons {c : Char} {s : List Char} :
    Substitutes (c :: s) ↔ c = '\x60' ∨ (c = '$' ∧ s.head? = some '(') ∨ Substitutes s := by
  have hprefix : ['$', '('] <+: c :: s ↔ c = '$' ∧ s.head? = some '(' := by
    cases s with
    | nil => simp
    | cons d s => simp [eq_comm]
  unfold Substitutes
  rw [List.infix_cons_iff, hprefix, List.mem_cons, eq_comm (a := c) (b := '\x60')]
  grind

instance decidableSubstitutes : (s : List Char) → Decidable (Substitutes s)
  | [] => .isFalse not_substitutes_nil
  | _ :: s =>
    have := decidableSubstitutes s
    decidable_of_iff _ substitutes_cons.symm

theorem substitutes_cons_of_ne {c : Char} (hdollar : c ≠ '$') (hbacktick : c ≠ '\x60')
    (s : List Char) : Substitutes (c :: s) ↔ Substitutes s := by
  simp [substitutes_cons, hdollar, hbacktick]

/-- A text without dollar signs and backticks before another one starts no
substitution. -/
theorem substitutes_append_left {before : List Char} (h : ∀ c ∈ before, c ≠ '$' ∧ c ≠ '\x60')
    (s : List Char) : Substitutes (before ++ s) ↔ Substitutes s := by
  induction before with
  | nil => rfl
  | cons c before ih =>
    obtain ⟨hdollar, hbacktick⟩ := h c List.mem_cons_self
    rw [List.cons_append, substitutes_cons_of_ne hdollar hbacktick]
    exact ih fun d hd => h d (List.mem_cons_of_mem _ hd)

/-- No substitution reaches over a blank. -/
theorem substitutes_append_blank (s t : List Char) :
    Substitutes (s ++ ' ' :: t) ↔ Substitutes s ∨ Substitutes t := by
  induction s with
  | nil =>
    rw [List.nil_append, substitutes_cons]
    simp [not_substitutes_nil]
  | cons c s ih =>
    have hhead : (s ++ ' ' :: t).head? = some '(' ↔ s.head? = some '(' := by
      cases s <;> simp
    rw [List.cons_append, substitutes_cons, substitutes_cons, ih, hhead]
    grind

/-- A text that has no part in a command substitution. -/
def Inert (s : List Char) : Prop := ∀ c ∈ s, c ≠ '$' ∧ c ≠ '(' ∧ c ≠ '\x60'

instance : DecidablePred Inert := fun s => List.decidableBAll _ s

section

variable (hne : needle ≠ []) (hnew : new ≠ []) (hneedle : Inert needle) (hinert : Inert new)

include hne hnew hneedle hinert

/-- Replacing puts no parenthesis at the start of a text, and takes none away. -/
theorem head?_replaceFrom_eq_parenthesis (s : List Char) :
    (replaceFrom needle new 0 s).head? = some '(' ↔ s.head? = some '(' := by
  cases s with
  | nil => simp [replaceFrom]
  | cons c s =>
    rw [replaceFrom]
    split
    · rename_i hprefix
      obtain ⟨e, es, rfl⟩ := List.exists_cons_of_ne_nil hnew
      have hc := hneedle c (mem_of_isPrefixOf_cons hne hprefix).1
      have he := hinert e List.mem_cons_self
      simp [hc.2.1, he.2.1]
    · simp

/-- Replacing an inert needle by an inert text keeps whether there is a command
substitution. What is passed over belongs to the needle. -/
theorem substitutes_replaceFrom {skip : Nat} (s : List Char)
    (hskip : ∀ c ∈ s.take skip, c ∈ needle) :
    Substitutes (replaceFrom needle new skip s) ↔ Substitutes s := by
  induction s generalizing skip with
  | nil => rw [replaceFrom]
  | cons c s ih =>
    have pass (hc : c ∈ needle) : Substitutes (c :: s) ↔ Substitutes s :=
      substitutes_cons_of_ne (hneedle c hc).1 (hneedle c hc).2.2 s
    cases skip with
    | succ skip =>
      rw [replaceFrom, pass (hskip c (by simp))]
      exact ih fun d hd => hskip d (by simp [hd])
    | zero =>
      rw [replaceFrom]
      split
      · rename_i hprefix
        obtain ⟨hc, hrest⟩ := mem_of_isPrefixOf_cons hne hprefix
        rw [substitutes_append_left fun d hd => ⟨(hinert d hd).1, (hinert d hd).2.2⟩, pass hc]
        exact ih hrest
      · rw [substitutes_cons, substitutes_cons, ih (by simp),
          head?_replaceFrom_eq_parenthesis hne hnew hneedle hinert]

end

end ShellAudit.Text
