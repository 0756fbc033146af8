-- SUMMARY: A repair keeps the number of rows, and rows without a remedy but for tabs and newlines.
import Mathlib.Data.List.Forall2
import ShellAudit.Proofs.Auditing
import ShellAudit.Proofs.Readers
import ShellAudit.Proofs.Repairing

/-!
# Rows that a repair keeps

A repair reads a file, repairs some rows and writes all of them. A remedy puts characters
into a row but never a line feed, and never takes the last one away; so what is written has
the rows that were read, one for one. A row that no finding with a remedy is about is written
as it was read. It is not always written as it was stored: reading folds the newlines and
writes the tabs out, and nothing undoes this.
-/

namespace ShellAudit

namespace Text

/-! ## Texts that are made of rows -/

/-- A row that a line feed ends. -/
def Ended (row : List Char) : Prop := ∃ body, row = body ++ ['\n'] ∧ '\n' ∉ body

/-- A row that nothing ends. -/
def Open (row : List Char) : Prop := row ≠ [] ∧ '\n' ∉ row

/-- Rows as a text has them: only the last may be open. -/
inductive AreRows : List (List Char) → Prop
  | nil : AreRows []
  | last {row : List Char} : Open row → AreRows [row]
  | cons {row : List Char} {rest : List (List Char)} : Ended row → AreRows rest →
      AreRows (row :: rest)

theorem AreRows.consFirst {c : Char} (hc : c ≠ '\n') {rows : List (List Char)} (h : AreRows rows) :
    AreRows (consFirst c rows) := by
  cases h with
  | nil => exact .last ⟨List.cons_ne_nil c [], by simpa using Ne.symm hc⟩
  | last hrow => exact .last ⟨List.cons_ne_nil c _, by simpa [Ne.symm hc] using hrow.2⟩
  | cons hrow hrest =>
    obtain ⟨body, rfl, hbody⟩ := hrow
    exact .cons ⟨c :: body, rfl, by simpa [Ne.symm hc] using hbody⟩ hrest

theorem areRows_rows (s : List Char) : AreRows (rows s) := by
  induction s with
  | nil => exact .nil
  | cons c cs ih =>
    rw [rows]
    split
    · rename_i hc
      exact .cons ⟨[], by rw [hc]; rfl, List.not_mem_nil⟩ ih
    · rename_i hc
      exact ih.consFirst hc

/-- Rows are cut out again of the text that they make up. -/
theorem rows_flatten {ps : List (List Char)} (h : AreRows ps) : rows ps.flatten = ps := by
  induction h with
  | nil => rfl
  | @last row hrow =>
    have happend := rows_append hrow.1 hrow.2 []
    simpa [rows, prependFirst] using happend
  | @cons row rest hrow _ ih =>
    obtain ⟨body, rfl, hbody⟩ := hrow
    have hfeed : rows ('\n' :: rest.flatten) = ['\n'] :: rest := by
      rw [rows, if_pos rfl, ih]
    rw [List.flatten_cons, List.append_assoc, List.singleton_append]
    by_cases hempty : body = []
    · rw [hempty]
      exact hfeed
    · rw [rows_append hempty hbody, hfeed]
      rfl

/-! ### Places in a row -/

/-- No line feed stands before the last place of a row. -/
theorem Ended.not_mem_take {row : List Char} (h : Ended row) {i : Nat} (hi : i < row.length) :
    '\n' ∉ row.take i := by
  obtain ⟨body, rfl, hbody⟩ := h
  rw [List.length_append, List.length_singleton] at hi
  rw [List.take_append_of_le_length (by omega)]
  exact fun hmem => hbody (List.mem_of_mem_take hmem)

/-- Any other character stands before the last place. -/
theorem Ended.lt_of_ne {row : List Char} (h : Ended row) {i : Nat} {c : Char}
    (hc : row[i]? = some c) (hne : c ≠ '\n') : i + 1 < row.length := by
  obtain ⟨body, rfl, -⟩ := h
  rw [List.length_append, List.length_singleton]
  by_contra hle
  obtain ⟨hlt, -⟩ := List.getElem?_eq_some_iff.1 hc
  rw [List.length_append, List.length_singleton] at hlt
  obtain rfl : i = body.length := by omega
  rw [List.getElem?_append_right (Nat.le_refl _), Nat.sub_self] at hc
  exact hne (Option.some.inj hc).symm

/-! ### Signed positions -/

/-- A signed position means a place, from the start or from the end. -/
theorem exists_of_at? {α : Type} {xs : List α} {i : Int} {x : α} (h : at? xs i = some x) :
    ∃ k : Nat, xs[k]? = some x ∧ bound xs.length i = k ∧ (i = k ∨ i = (k : Int) - xs.length) := by
  unfold at? at h
  split at h
  · obtain ⟨hlt, -⟩ := List.getElem?_eq_some_iff.1 h
    refine ⟨i.toNat, h, ?_, .inl (by omega)⟩
    rw [bound, if_pos ‹_›]
    omega
  · split at h
    · refine ⟨(xs.length + i).toNat, h, ?_, .inr (by omega)⟩
      rw [bound, if_neg ‹_›]
    · cases h

theorem mem_of_mem_slice {α : Type} {xs : List α} {start stop : Int} {x : α}
    (h : x ∈ slice xs start stop) : x ∈ xs.take (bound xs.length stop) :=
  List.mem_of_mem_drop h

theorem getElem?_of_findLast? {c : Char} {s : List Char} {i : Nat}
    (h : findLast? [c] s = some i) : s[i]? = some c := by
  induction s generalizing i with
  | nil => cases h
  | cons d ds ih =>
    rw [findLast?] at h
    split at h
    · rename_i j hj
      cases h
      exact ih hj
    · split at h
      · rename_i hstarts
        cases h
        have hc : c = d := by simpa [List.isPrefixOf] using hstarts
        rw [hc]
        rfl
      · cases h

end Text

namespace Repair

open Text

/-! ## Remedies -/

/-- The characters that remedies put into a row. -/
def marks : List Char := ['"', '$', '(', ')']

/-- What a remedy makes of a row: it ends as the row does from some place on, and is made of
the row's characters and marks before. The line feed of a row that has one is in that ending. -/
def Edited (row out : List Char) : Prop :=
  ∃ front stop, out = front ++ row.drop stop ∧ front ≠ [] ∧
    (∀ c ∈ front, c ∈ marks ∨ c ∈ row) ∧
    (Ended row → stop < row.length ∧ '\n' ∉ front)

/-- The second row ends as the first one does, and has no tab if that has none. -/
structure SameEnd (row out : List Char) : Prop where
  ended : Ended row → Ended out
  opened : Open row → Open out
  tabs : '\t' ∉ row → '\t' ∉ out

theorem SameEnd.refl (row : List Char) : SameEnd row row := ⟨id, id, id⟩

theorem SameEnd.trans {row out out' : List Char} (h : SameEnd row out) (h' : SameEnd out out') :
    SameEnd row out' :=
  ⟨h'.ended ∘ h.ended, h'.opened ∘ h.opened, h'.tabs ∘ h.tabs⟩

theorem Edited.sameEnd {row out : List Char} (h : Edited row out) : SameEnd row out := by
  obtain ⟨front, stop, rfl, hfront, hchars, hfeed⟩ := h
  have hmem {c : Char} (hc : c ∈ front ++ row.drop stop) : c ∈ marks ∨ c ∈ row := by
    rcases List.mem_append.1 hc with hc | hc
    · exact hchars c hc
    · exact .inr (List.mem_of_mem_drop hc)
  constructor
  · intro hended
    obtain ⟨hstop, hfront⟩ := hfeed hended
    obtain ⟨body, rfl, hbody⟩ := hended
    rw [List.length_append, List.length_singleton] at hstop
    refine ⟨front ++ body.drop stop, ?_, ?_⟩
    · rw [List.drop_append_of_le_length (by omega), List.append_assoc]
    · rw [List.mem_append, not_or]
      exact ⟨hfront, fun h => hbody (List.mem_of_mem_drop h)⟩
  · intro hopen
    refine ⟨List.append_ne_nil_of_left_ne_nil hfront _, fun h => ?_⟩
    exact (hmem h).elim (by decide) hopen.2
  · intro htab h
    exact (hmem h).elim (by decide) htab

/-- Pieces of a row with marks around them are an edit of it. -/
theorem edited_of_pieces {row inner opening closing : List Char} {i stop : Nat}
    (hopening : opening.all marks.contains = true) (hclosing : closing.all marks.contains = true)
    (hne : opening ≠ []) (hinner : ∀ c ∈ inner, c ∈ row.take stop)
    (hi : Ended row → i < row.length) (hstop : Ended row → stop < row.length)
    {rest : Nat} (hrest : Ended row → rest < row.length) :
    Edited row (row.take i ++ opening ++ inner ++ closing ++ row.drop rest) := by
  have hfeed : '\n' ∉ marks := by decide
  have hmarks {s : List Char} (h : s.all marks.contains = true) (c : Char) (hc : c ∈ s) :
      c ∈ marks := List.contains_iff_mem.1 (List.all_eq_true.1 h c hc)
  refine ⟨_, rest, rfl, ?_, ?_, fun hended => ⟨hrest hended, ?_⟩⟩
  · simp [hne]
  · intro c hc
    simp only [List.mem_append] at hc
    rcases hc with ((hc | hc) | hc) | hc
    · exact .inr (List.mem_of_mem_take hc)
    · exact .inl (hmarks hopening c hc)
    · exact .inr (List.mem_of_mem_take (hinner c hc))
    · exact .inl (hmarks hclosing c hc)
  · simp only [List.mem_append, not_or]
    exact ⟨⟨⟨hended.not_mem_take (hi hended), fun h => hfeed (hmarks hopening _ h)⟩,
      fun h => hended.not_mem_take (hstop hended) (hinner _ h)⟩,
      fun h => hfeed (hmarks hclosing _ h)⟩

theorem at?_of_dollarAt {row : List Char} {column dollar : Int}
    (h : dollarAt row column = .ok dollar) : at? row dollar = some '$' := by
  unfold dollarAt at h
  split at h
  · cases h
  · rename_i c hc
    split at h
    · rename_i hdollar
      cases h
      rw [hc, hdollar]
    · split at h
      · cases h
      · split at h
        · rename_i i hi
          cases h
          have hfound := getElem?_of_findLast? hi
          rw [List.getElem?_take] at hfound
          rw [at?_ofNat]
          exact (Option.ite_none_right_eq_some.1 hfound).2
        · cases h

/-- The run behind a dollar sign ends before the line feed, which is no part of a run. -/
theorem quoteRun_edited {row : List Char} {dollar : Int} (h : at? row dollar = some '$') :
    Edited row (quoteRun row dollar) := by
  obtain ⟨i, hi, hbound, -⟩ := exists_of_at? h
  let run := (row.drop i).takeWhile inRun
  have hrun : run = (row.drop i).take run.length :=
    List.prefix_iff_eq_take.1 (List.takeWhile_prefix inRun)
  have hinner : ∀ c ∈ run, c ∈ row.take (i + run.length) := by
    intro c hc
    rw [hrun, List.take_drop] at hc
    exact List.mem_of_mem_drop hc
  have hrest (hended : Ended row) : i + run.length < row.length := by
    have hlt := hended.lt_of_ne hi (by decide)
    by_contra hle
    have hall : run = row.drop i := by
      rw [hrun, List.take_of_length_le (by rw [List.length_drop]; omega)]
    obtain ⟨body, rfl, -⟩ := hended
    rw [List.length_append, List.length_singleton] at hlt
    have hfeed : '\n' ∈ run := by
      rw [hall, List.drop_append_of_le_length (by omega)]
      simp
    exact absurd (List.mem_takeWhile_imp hfeed) (by decide)
  have hedited : Edited row (row.take i ++ ['"'] ++ run ++ ['"'] ++ row.drop (i + run.length)) := by
    refine edited_of_pieces (by decide) (by decide) (by decide) hinner ?_ hrest hrest
    intro hended
    have := hended.lt_of_ne hi (by decide)
    omega
  simpa [quoteRun, before, after, hbound, run] using hedited

theorem variableIn_edited {row out : List Char} {column : Int} {more : Nat} (htab : '\t' ∉ row)
    (h : variableIn row row column = .ok (out, more)) : out = row ∨ Edited row out := by
  rcases variableIn_cases htab h with ⟨rfl, -⟩ | ⟨dollar, hdollar, rfl, -⟩
  · exact .inl rfl
  · exact .inr (quoteRun_edited (at?_of_dollarAt hdollar))

theorem backticks_edited {row : List Char} {start : Int} (h : at? row start = some '\x60') :
    (backticks row start).1 = row ∨ Edited row (backticks row start).1 := by
  obtain ⟨i, hi, hbound, -⟩ := exists_of_at? h
  unfold backticks
  split
  · exact .inl rfl
  · rename_i stop hstop
    obtain ⟨-, hclose⟩ := getElem?_of_findFrom? hstop
    have hcut : bound row.length (stop : Int) = stop := by
      obtain ⟨hlt, -⟩ := List.getElem?_eq_some_iff.1 hclose
      rw [bound, if_pos (Int.natCast_nonneg stop), Int.toNat_natCast, Nat.min_eq_left (by omega)]
    have hinner : ∀ c ∈ slice row (start + 1) stop, c ∈ row.take stop := by
      intro c hc
      rw [← hcut]
      exact mem_of_mem_slice hc
    right
    simp only [before, hbound]
    refine edited_of_pieces (by decide) (by decide) (by decide) hinner ?_ ?_ ?_
    · intro hended
      have := hended.lt_of_ne hi (by decide)
      omega
    · intro hended
      have := hended.lt_of_ne hclose (by decide)
      omega
    · intro hended
      exact hended.lt_of_ne hclose (by decide)

theorem getElem?_of_matching? {depth position last : Int} {s : List Char}
    (h : matching? depth position s = some last) :
    ∃ k : Nat, last = position + k ∧ s[k]? = some ')' := by
  induction s generalizing depth position with
  | nil => cases h
  | cons c cs ih =>
    have next {depth : Int} (h : matching? depth (position + 1) cs = some last) :
        ∃ k : Nat, last = position + k ∧ (c :: cs)[k]? = some ')' := by
      obtain ⟨k, hk, hchar⟩ := ih h
      exact ⟨k + 1, by omega, hchar⟩
    rw [matching?] at h
    split at h
    · exact next h
    · split at h
      · rename_i hc
        split at h
        · cases h
          exact ⟨0, by omega, by rw [hc]; rfl⟩
        · exact next h
      · exact next h

/-- The characters from a position on stand at the positions from there on, those that are
counted from the end before those that are not. -/
theorem at?_of_charsFrom {row : List Char} {start : Int} {k : Nat} {c : Char}
    (hstart : -(row.length : Int) ≤ start) (h : (charsFrom row start)[k]? = some c) :
    at? row (start + k) = some c := by
  unfold charsFrom at h
  split at h
  · obtain ⟨i, rfl⟩ := Int.eq_ofNat_of_zero_le ‹0 ≤ start›
    rw [after_ofNat, List.getElem?_drop] at h
    rw [← Int.natCast_add, at?_ofNat, h]
  · have hbound : bound row.length start = (row.length + start).toNat := by
      rw [bound, if_neg ‹_›]
    rw [after, hbound, List.getElem?_append, List.length_drop, List.getElem?_drop] at h
    unfold at?
    split at h
    · rw [if_neg (by omega), if_pos (by omega)]
      rw [← h]
      congr 1
      omega
    · rw [if_pos (by omega), ← h]
      congr 1
      omega

theorem parentheses_edited {row out : List Char} {start : Int} {more : Nat}
    (hstart : at? row start = some '$') (h : parentheses row start = .ok (out, more)) :
    out = row ∨ Edited row out := by
  obtain ⟨i, hi, hbound, hsign⟩ := exists_of_at? hstart
  unfold parentheses at h
  split at h
  · cases h
  · split at h
    · cases h
      exact .inl rfl
    · rename_i last hlast
      cases h
      obtain ⟨k, hk, hchar⟩ := getElem?_of_matching? hlast
      have hclose : at? row last = some ')' := hk ▸ at?_of_charsFrom (by omega) hchar
      obtain ⟨l, hl, -, hplace⟩ := exists_of_at? hclose
      have hstop (hended : Ended row) : bound row.length (last + 1) < row.length := by
        have := hended.lt_of_ne hl (by decide)
        unfold bound
        split <;> omega
      have hedited : Edited row (row.take i ++ ['"'] ++ slice row start (last + 1) ++ ['"'] ++
          row.drop (bound row.length (last + 1))) := by
        refine edited_of_pieces (by decide) (by decide) (by decide) (fun _ => mem_of_mem_slice) ?_
          hstop hstop
        intro hended
        have := hended.lt_of_ne hi (by decide)
        omega
      right
      simpa [before, after, hbound] using hedited

theorem Remedy.apply_sameEnd {remedy : Remedy} {row out : List Char} {column : Int} {more : Nat}
    (htab : '\t' ∉ row) (h : remedy.apply row column = .ok (out, more)) : SameEnd row out := by
  have hedited : out = row ∨ Edited row out := by
    cases remedy with
    | quoteVariable => exact variableIn_edited htab h
    | quoteSubstitution =>
      rcases substitutionIn_cases h with ⟨rfl, -⟩ | ⟨htick, hresult⟩ | ⟨hdollar, hresult⟩
      · exact .inl rfl
      · have hticks := backticks_edited htick
        rwa [hresult] at hticks
      · exact parentheses_edited hdollar hresult
  rcases hedited with rfl | hedited
  · exact .refl out
  · exact hedited.sameEnd

/-! ## One row -/

/-- What a finding makes of a line, and of the number of characters that it has grown by. -/
def step (state : List Char × Nat) (f : Finding) : Except Fault (List Char × Nat) :=
  match Remedy.ofDescription? f.description with
  | none => .ok state
  | some remedy =>
    match f.column with
    | none => .error .missingColumn
    | some column =>
      (remedy.apply state.1 (state.2 + column - 1)).map fun result =>
        (result.1, state.2 + result.2)

/-- The repair of a line is made of one step for each finding. -/
theorem repairLine_eq_foldlM (line : List Char) (added : Nat) (fs : List Finding) :
    repairLine line added fs = (fs.foldlM step (line, added)).map Prod.fst := by
  induction fs generalizing line added with
  | nil => rfl
  | cons f fs ih =>
    rw [repairLine, List.foldlM_cons, step]
    cases Remedy.ofDescription? f.description with
    | none => exact ih line added
    | some remedy =>
      cases f.column with
      | none => rfl
      | some column =>
        simp only
        cases remedy.apply line (added + column - 1) with
        | error fault => rfl
        | ok result => exact ih result.1 (added + result.2)

/-- A step does nothing, or applies the remedy for its finding. -/
theorem step_cases {line out : List Char} {added added' : Nat} {f : Finding}
    (h : step (line, added) f = .ok (out, added')) :
    (out = line ∧ added' = added) ∨
      ∃ remedy column more, f.column = some column ∧
        Remedy.apply line (added + column - 1) remedy = .ok (out, more) ∧
        added' = added + more := by
  unfold step at h
  cases hremedy : Remedy.ofDescription? f.description with
  | none =>
    rw [hremedy] at h
    cases h
    exact .inl ⟨rfl, rfl⟩
  | some remedy =>
    cases hcolumn : f.column with
    | none =>
      rw [hremedy, hcolumn] at h
      cases h
    | some column =>
      rw [hremedy, hcolumn] at h
      cases happly : remedy.apply line (added + column - 1) with
      | error fault =>
        simp only [happly] at h
        cases h
      | ok result =>
        simp only [happly] at h
        cases h
        exact .inr ⟨remedy, column, result.2, rfl, happly, rfl⟩

/-- What every step keeps holds behind them. -/
theorem foldlM_step_induction {P : List Char × Nat → Prop} {fs : List Finding}
    (hstep : ∀ f ∈ fs, ∀ state state', P state → step state f = .ok state' → P state')
    {state state' : List Char × Nat} (hstart : P state)
    (h : fs.foldlM step state = .ok state') : P state' := by
  induction fs generalizing state with
  | nil =>
    cases h
    exact hstart
  | cons f fs ih =>
    obtain ⟨hfirst, hrest⟩ := List.forall_mem_cons.1 hstep
    rw [List.foldlM_cons] at h
    cases hone : step state f with
    | error fault =>
      rw [hone] at h
      cases h
    | ok next =>
      rw [hone] at h
      exact ih hrest (hfirst state next hstart hone) h

theorem foldlM_step_sameEnd {row out : List Char} {added added' : Nat} {fs : List Finding}
    (htab : '\t' ∉ row) (h : fs.foldlM step (row, added) = .ok (out, added')) :
    SameEnd row out := by
  refine foldlM_step_induction (P := fun state => SameEnd row state.1) ?_ (.refl row) h
  rintro f - ⟨line, grown⟩ ⟨line', grown'⟩ hline hone
  rcases step_cases hone with ⟨rfl, -⟩ | ⟨remedy, column, more, -, happly, -⟩
  · exact hline
  · exact hline.trans (Remedy.apply_sameEnd (hline.tabs htab) happly)

theorem repairLine_sameEnd {row out : List Char} {added : Nat} {fs : List Finding}
    (htab : '\t' ∉ row) (h : repairLine row added fs = .ok out) : SameEnd row out := by
  rw [repairLine_eq_foldlM] at h
  cases hrun : fs.foldlM step (row, added) with
  | error fault =>
    rw [hrun] at h
    cases h
  | ok state =>
    rw [hrun] at h
    cases h
    exact foldlM_step_sameEnd htab hrun

/-- A finding with a remedy that a repair of `n` rows looks up in the row `i`. A line that is
not positive is counted from the end. -/
def Touches (n i : Nat) (f : Finding) : Prop :=
  (Remedy.ofDescription? f.description).isSome = true ∧
    (f.line - 1 = (i : Int) ∨ f.line - 1 = (i : Int) - n)

/-- Repaired rows, one for one: each ends as it did, and is the same if no finding touches it. -/
structure Kept (fs : List Finding) (rows rows' : List String) : Prop where
  each : List.Forall₂ (fun row row' => SameEnd row.toList row'.toList) rows rows'
  untouched : ∀ i : Nat, (∀ f ∈ fs, ¬ Touches rows.length i f) → rows'[i]? = rows[i]?

theorem Kept.refl (fs : List Finding) (rows : List String) : Kept fs rows rows where
  each := List.forall₂_same.2 fun row _ => .refl row.toList
  untouched _ _ := rfl

theorem Kept.trans {fs : List Finding} {rows rows' rows'' : List String} (h : Kept fs rows rows')
    (h' : Kept fs rows' rows'') : Kept fs rows rows'' where
  each := by
    have htrans {xs ys zs : List String}
        (hxy : List.Forall₂ (fun row row' => SameEnd row.toList row'.toList) xs ys)
        (hyz : List.Forall₂ (fun row row' => SameEnd row.toList row'.toList) ys zs) :
        List.Forall₂ (fun row row' => SameEnd row.toList row'.toList) xs zs := by
      induction hxy generalizing zs with
      | nil => exact hyz
      | cons hone _ ih =>
        cases hyz with
        | cons hone' hrest => exact .cons (hone.trans hone') (ih hrest)
    exact htrans h.each h'.each
  untouched i hi := by
    have hlength : rows'.length = rows.length := h.each.length_eq.symm
    rw [h'.untouched i (by rwa [hlength]), h.untouched i hi]

theorem Kept.tabs {fs : List Finding} {rows rows' : List String} (h : Kept fs rows rows')
    (htabs : ∀ row ∈ rows, '\t' ∉ row.toList) : ∀ row ∈ rows', '\t' ∉ row.toList := by
  have hall := h.each
  clear h
  induction hall with
  | nil => exact htabs
  | cons hone _ ih =>
    rw [List.forall_mem_cons] at htabs ⊢
    exact ⟨hone.tabs htabs.1, ih htabs.2⟩

theorem Kept.areRows {fs : List Finding} {rows rows' : List String} (h : Kept fs rows rows')
    (hrows : AreRows (rows.map String.toList)) : AreRows (rows'.map String.toList) := by
  have hall := h.each
  clear h
  induction hall with
  | nil => exact hrows
  | @cons row row' rest rest' hone hrest ih =>
    rw [List.map_cons] at hrows ⊢
    generalize htail : rest.map String.toList = tail at hrows
    cases hrows with
    | last hopen =>
      cases List.map_eq_nil_iff.1 htail
      cases hrest
      exact .last (hone.opened hopen)
    | cons hended hareRows => exact .cons (hone.ended hended) (ih (htail ▸ hareRows))

/-- A repair of a row stops and leaves the rows as they are, or it has put the findings in order,
repaired the row that is there and written it back. -/
theorem exec_repairRow_cases (index : Int) (fs : List Finding) (rows : List String) :
    (∃ fault, (repairRow index fs).exec rows = (.error fault, rows)) ∨
      ∃ sorted row out, inOrder fs = .ok sorted ∧ at? rows index = some row ∧
        repairLine row.toList 0 sorted = .ok out ∧
        (repairRow index fs).exec rows = (.ok (), replaceAt rows index (String.ofList out)) := by
  cases hsorted : inOrder fs with
  | error fault =>
    refine .inl ⟨fault, ?_⟩
    simp only [repairRow, exec_bind, exec_liftExcept, hsorted]
  | ok sorted =>
    cases hrow : at? rows index with
    | none =>
      refine .inl ⟨.lineOutOfRange, ?_⟩
      simp only [repairRow, exec_bind, exec_liftExcept, hsorted, exec_get, hrow]
      rfl
    | some row =>
      cases hout : repairLine row.toList 0 sorted with
      | error fault =>
        refine .inl ⟨fault, ?_⟩
        simp only [repairRow, exec_bind, exec_liftExcept, hsorted, exec_get, hrow, hout]
      | ok out => exact .inr ⟨sorted, row, out, rfl, rfl, hout, exec_repairRow hsorted hrow hout⟩

theorem forall₂_set {rows : List String} {k : Nat} {row row' : String}
    (hrow : rows[k]? = some row) (h : SameEnd row.toList row'.toList) :
    List.Forall₂ (fun row row' => SameEnd row.toList row'.toList) rows (rows.set k row') := by
  have hrefl (rows : List String) := (Kept.refl [] rows).each
  induction rows generalizing k with
  | nil => exact .nil
  | cons first rest ih =>
    cases k with
    | zero =>
      cases hrow
      exact .cons h (hrefl rest)
    | succ k => exact .cons (.refl first.toList) (ih hrow)

/-- The step: a repair of one row changes no other, and not this one without a remedy. -/
theorem repairRow_kept {rows : List String} (htabs : ∀ row ∈ rows, '\t' ∉ row.toList)
    (fs : List Finding) (index : Int) :
    Kept fs rows ((repairRow index (fs.filter (·.line - 1 = index))).exec rows).2 := by
  rcases exec_repairRow_cases index (fs.filter (·.line - 1 = index)) rows with
    ⟨fault, hstop⟩ | ⟨sorted, row, out, hsorted, hrow, hout, hset⟩
  · rw [hstop]
    exact .refl fs rows
  · obtain ⟨k, hk, -, hplace⟩ := exists_of_at? hrow
    obtain ⟨hlt, -⟩ := List.getElem?_eq_some_iff.1 hk
    have hreplace : replaceAt rows index (String.ofList out) = rows.set k (String.ofList out) := by
      unfold replaceAt
      congr 1
      split <;> omega
    rw [hset, hreplace]
    have hend := repairLine_sameEnd (htabs row (List.mem_of_getElem? hk)) hout
    refine ⟨forall₂_set hk (by rwa [String.toList_ofList]), fun i hi => ?_⟩
    rw [List.getElem?_set]
    split
    · rename_i hik
      subst hik
      -- No finding about the row has a remedy, so nothing was done to it.
      have hnone : ∀ f ∈ sorted, Remedy.ofDescription? f.description = none := by
        intro f hf
        obtain ⟨hmem, hline⟩ := List.mem_filter.1 (mem_of_inOrder hsorted hf)
        rw [decide_eq_true_eq] at hline
        by_contra hsome
        exact hi f hmem ⟨Option.isSome_iff_ne_none.2 hsome, hline ▸ hplace⟩
      rw [repairLine_of_no_remedy hnone] at hout
      cases hout
      rw [String.ofList_toList, hk]
    · rfl

/-- The run, by induction on the rows to repair. Whether it returns or stops, what it leaves
behind is kept. -/
theorem repairRows_kept {rows : List String} (htabs : ∀ row ∈ rows, '\t' ∉ row.toList)
    (fs : List Finding) (indices : List Int) :
    Kept fs rows ((repairRows fs indices).exec rows).2 := by
  induction indices generalizing rows with
  | nil => exact .refl fs rows
  | cons index rest ih =>
    have hstep := repairRow_kept htabs fs index
    rw [repairRows, exec_bind]
    cases hrun : (repairRow index (fs.filter (·.line - 1 = index))).exec rows with
    | mk result rows' =>
      rw [hrun] at hstep
      cases result with
      | error fault => exact hstep
      | ok _ => exact hstep.trans (ih (hstep.tabs htabs))

theorem all_kept {rows : List String} (htabs : ∀ row ∈ rows, '\t' ∉ row.toList)
    (fs : List Finding) : Kept fs rows ((all fs).exec rows).2 :=
  repairRows_kept htabs fs _

theorem tabs_rowsOf (text : String) : ∀ row ∈ rowsOf text, '\t' ∉ row.toList := by
  intro row hrow
  obtain ⟨chars, -, rfl⟩ := List.mem_map.1 hrow
  rw [String.toList_ofList]
  exact not_mem_expandTabsFrom 0 chars

theorem areRows_rowsOf (text : String) : AreRows ((rowsOf text).map String.toList) := by
  have hmap : (rowsOf text).map String.toList = rows (expandTabs text.toList) := by
    simp [rowsOf, rows_expandTabs, Function.comp_def]
  rw [hmap]
  exact areRows_rows _

end Repair

/-! ## Files -/

namespace Text

/-- The rows of a text with the newlines that are stored: a carriage return ends a row too,
and with a line feed behind it the two end one row. -/
def storedRows : List Char → List (List Char)
  | [] => []
  | '\r' :: '\n' :: s => ['\r', '\n'] :: storedRows s
  | c :: s => if c = '\n' ∨ c = '\r' then [c] :: storedRows s else consFirst c (storedRows s)

theorem flatten_storedRows (s : List Char) : (storedRows s).flatten = s := by
  fun_induction storedRows s with
  | case1 => rfl
  | case2 s ih => simp [ih]
  | case3 c s _ _ ih => simp [ih]
  | case4 c s _ _ ih => simp [ih]

/-- A row of the text that is read is a row of the stored text, with its newline folded. -/
theorem rows_unifyNewlines (s : List Char) :
    rows (unifyNewlines s) = (storedRows s).map unifyNewlines := by
  fun_induction storedRows s with
  | case1 => rfl
  | case2 s ih => simp [unifyNewlines, rows, ih]
  | case3 c s hpair hend ih =>
    have hfold : (if c = '\r' then '\n' else c) = '\n' := by
      rcases hend with rfl | rfl <;> rfl
    rw [unifyNewlines.eq_3 c s hpair, hfold, rows, if_pos rfl, ih, List.map_cons]
    rcases hend with rfl | rfl <;> rfl
  | case4 c s hpair hend ih =>
    rw [not_or] at hend
    have hkeep (t : List Char) : unifyNewlines (c :: t) = c :: unifyNewlines t := by
      rw [unifyNewlines.eq_3 c t fun _ hc => absurd hc hend.2, if_neg hend.2]
    rw [hkeep, rows, if_neg hend.1, ih]
    cases storedRows s with
    | nil => simp [consFirst, hkeep, unifyNewlines]
    | cons row rest => simp [consFirst, hkeep]

theorem unifyNewlines_of_not_mem {s : List Char} (h : '\r' ∉ s) : unifyNewlines s = s := by
  induction s with
  | nil => rfl
  | cons c s ih =>
    rw [List.mem_cons, not_or] at h
    rw [unifyNewlines.eq_3 c s fun _ hc => absurd hc.symm h.1, if_neg (Ne.symm h.1), ih h.2]

theorem mem_of_mem_expandTabsFrom {c : Char} {column : Nat} {s : List Char}
    (h : c ∈ expandTabsFrom column s) : c = ' ' ∨ c ∈ s := by
  induction s generalizing column with
  | nil => cases h
  | cons d s ih =>
    by_cases htab : d = '\t'
    · subst htab
      obtain ⟨gap, -, hexpand⟩ := expandTabsFrom_tab column
      rw [hexpand, List.mem_append] at h
      rcases h with h | h
      · exact .inl (List.eq_of_mem_replicate h)
      · exact (ih h).imp_right (List.mem_cons_of_mem _)
    · obtain ⟨next, hexpand⟩ := expandTabsFrom_cons htab column
      rw [hexpand, List.mem_cons] at h
      rcases h with rfl | h
      · exact .inr List.mem_cons_self
      · exact (ih h).imp_right (List.mem_cons_of_mem _)

/-- A stored row is read as it is exactly if it has no tab and no carriage return. -/
theorem expandTabs_unifyNewlines_eq_self_iff (row : List Char) :
    expandTabs (unifyNewlines row) = row ↔ '\t' ∉ row ∧ '\r' ∉ row := by
  constructor
  · intro h
    refine ⟨h ▸ not_mem_expandTabsFrom 0 _, fun hmem => ?_⟩
    rw [← h] at hmem
    rcases mem_of_mem_expandTabsFrom hmem with hblank | hmem
    · exact absurd hblank (by decide)
    · exact not_mem_unifyNewlines row hmem
  · rintro ⟨htab, hreturn⟩
    rw [unifyNewlines_of_not_mem hreturn]
    exact expandTabsFrom_of_not_mem htab 0

end Text

theorem FileStore.read_of_readText {store : FileStore} {path text : String}
    (h : store.readText path = .ok text) :
    ∃ source : String, store.read path = .ok source.toUTF8 ∧
      text.toList = Text.unifyNewlines source.toList := by
  unfold readText at h
  split at h
  · rename_i bytes hbytes
    split at h
    · rename_i source hsource
      cases h
      refine ⟨source, ?_, String.toList_ofList⟩
      rw [hbytes]
      unfold String.fromUTF8? at hsource
      split at hsource
      · cases hsource
        rfl
      · cases hsource
    · cases h
  · cases h

namespace Job

theorem exec_bind {α β : Type} (job : Job Id α) (next : α → Job Id β) (s : State) :
    (job >>= next).exec s =
      match job.exec s with
      | (.ok a, s) => (next a).exec s
      | (.error fault, s) => (.error fault, s) := by
  simp only [exec, ExceptT.run_bind, StateT.run_bind]
  rcases (ExceptT.run job).run s with ⟨_ | _, _⟩ <;> rfl

/-- A fault of reading, repairing or writing leaves the files as they are. -/
theorem exec_repairFile (path output : String) (fs : List Finding) (s : State) :
    (repairFile path output fs : Job Id Unit).exec s =
      match s.files.readText path with
      | .error fault => (.error fault, s)
      | .ok text =>
        match (Repair.all fs).exec (Repair.rowsOf text) with
        | (.error fault, _) => (.error fault, s)
        | (.ok (), rows) =>
          match s.files.write output (String.join rows) with
          | .error fault => (.error fault, s)
          | .ok files => (.ok (), { s with files := files }) := by
  have hget : exec (get : Job Id State) s = (.ok s, s) := rfl
  have hlift {α : Type} (x : Except Fault α) (s : State) :
      (liftExcept x : Job Id α).exec s = (x, s) := rfl
  rw [repairFile, exec_bind, hget]
  simp only [exec_bind, hlift]
  cases s.files.readText path with
  | error fault => rfl
  | ok text =>
    simp only [repairRows]
    rcases (Repair.all fs).exec (Repair.rowsOf text) with ⟨_ | _, rows⟩
    · rfl
    · simp only [exec_bind, hget]
      cases s.files.write output (String.join rows) <;> rfl

/-- A repair that returns has read the rows, repaired them and written them. -/
theorem repairFile_ok {path output : String} {fs : List Finding} {s s' : State}
    (h : (repairFile path output fs : Job Id Unit).exec s = (.ok (), s')) :
    ∃ text rows, s.files.readText path = .ok text ∧
      (Repair.all fs).exec (Repair.rowsOf text) = (.ok (), rows) ∧
      s.files.write output (String.join rows) = .ok s'.files := by
  rw [exec_repairFile] at h
  split at h
  · cases h
  · rename_i text hread
    split at h
    · cases h
    · rename_i rows hrun
      split at h
      · cases h
      · rename_i files hwrite
        cases h
        exact ⟨text, rows, hread, hrun, hwrite⟩

/-- A repair that returns has written as many rows as the file has. A row that no finding with
a remedy is about is written with its newline folded and its tabs written out, so it is the row
of the file exactly if it has neither a tab nor a carriage return. -/
theorem repairFile_rows {path output : String} {fs : List Finding} {s s' : State}
    (h : (repairFile path output fs : Job Id Unit).exec s = (.ok (), s')) :
    ∃ source written : String, s.files.read path = .ok source.toUTF8 ∧
      s.files.write output written = .ok s'.files ∧
      (Text.rows written.toList).length = (Text.storedRows source.toList).length ∧
      ∀ (i : Nat) (row : List Char), (Text.storedRows source.toList)[i]? = some row →
        (∀ f ∈ fs, ¬ Repair.Touches (Text.storedRows source.toList).length i f) →
        ∃ row', (Text.rows written.toList)[i]? = some row' ∧
          row' = Text.expandTabs (Text.unifyNewlines row) ∧
          (row' = row ↔ '\t' ∉ row ∧ '\r' ∉ row) := by
  obtain ⟨text, rows, hread, hrun, hwrite⟩ := repairFile_ok h
  obtain ⟨source, hsource, htext⟩ := FileStore.read_of_readText hread
  have hkept := Repair.all_kept (Repair.tabs_rowsOf text) fs
  rw [hrun] at hkept
  have hwritten : Text.rows (String.join rows).toList = rows.map String.toList := by
    rw [String.toList_join, List.flatMap_def]
    exact Text.rows_flatten (hkept.areRows (Repair.areRows_rowsOf text))
  have hrows : Text.rows text.toList = (Text.storedRows source.toList).map Text.unifyNewlines := by
    rw [htext, Text.rows_unifyNewlines]
  have hlength : (Repair.rowsOf text).length = (Text.storedRows source.toList).length := by
    simp [Repair.rowsOf, hrows]
  refine ⟨source, String.join rows, hsource, hwrite, ?_, ?_⟩
  · rw [hwritten, List.length_map, ← hkept.each.length_eq, hlength]
  · intro i row hrow hfs
    refine ⟨_, ?_, rfl, Text.expandTabs_unifyNewlines_eq_self_iff row⟩
    rw [← hlength] at hfs
    rw [hwritten, List.getElem?_map, hkept.untouched i hfs, Repair.getElem?_rowsOf, hrows,
      List.getElem?_map, hrow]
    simp only [Option.map_some, String.toList_ofList]

/-- A script whose first row is to be repaired. The second has a tab, the third a carriage
return, and the last one does not end. -/
def mixedRows : String := "echo $x\n\tcat\nls\r\necho $y"

/-- A variable that is not quoted in a line, at a column. -/
def unquotedAt (line column : Int) : Finding :=
  { category := .variableExpansion, severity := .high, description := Wording.unquotedVariable,
    line := line, column := some column }

/-- The text at `b.sh` after `a.sh`, which holds a text, has been repaired into it. -/
def repairedText (text : String) (fs : List Finding) : Option String :=
  match (repairFile "a.sh" "b.sh" fs : Job Id Unit).exec (holding text) with
  | (.ok (), s) => (s.files.read "b.sh").toOption.bind String.fromUTF8?
  | (.error _, _) => none

/-- Of the rows that are not repaired only the last is written as it is stored. -/
theorem repairFile_rows_mixed :
    let fs := [unquotedAt 1 6]
    let s' := ((repairFile "a.sh" "b.sh" fs : Job Id Unit).exec (holding mixedRows)).2
    (repairFile "a.sh" "b.sh" fs : Job Id Unit).exec (holding mixedRows) = (.ok (), s') ∧
      ∃ written : String, (holding mixedRows).files.write "b.sh" written = .ok s'.files ∧
        (Text.rows written.toList).length = 4 ∧
        (Text.rows written.toList)[1]? = some "        cat\n".toList ∧
        (Text.rows written.toList)[2]? = some "ls\n".toList ∧
        (Text.rows written.toList)[3]? = some "echo $y".toList := by
  intro fs s'
  have hrun : (repairFile "a.sh" "b.sh" fs : Job Id Unit).exec (holding mixedRows) = (.ok (), s') :=
    Prod.ext (by decide +kernel) rfl
  have hread : (holding mixedRows).files.read "a.sh" = .ok mixedRows.toUTF8 := by decide +kernel
  obtain ⟨source, written, hsource, hwrite, hlength, hrows⟩ := repairFile_rows hrun
  obtain rfl : source = mixedRows := by
    rw [hread] at hsource
    exact (String.toByteArray_inj.1 (Except.ok.inj hsource)).symm
  have hother (i : Nat) (hi : i ≠ 0 ∧ i < 4) :
      ∀ f ∈ fs, ¬ Repair.Touches (Text.storedRows mixedRows.toList).length i f := by
    intro f hf
    have hfour : (Text.storedRows mixedRows.toList).length = 4 := by decide +kernel
    rw [List.mem_singleton.1 hf, hfour]
    rintro ⟨-, hline⟩
    simp only [unquotedAt] at hline
    omega
  have hrow (i : Nat) (hi : i ≠ 0 ∧ i < 4) (row : List Char)
      (hstored : (Text.storedRows mixedRows.toList)[i]? = some row) :
      (Text.rows written.toList)[i]? = some (Text.expandTabs (Text.unifyNewlines row)) := by
    obtain ⟨_, hwritten, rfl, -⟩ := hrows i row hstored (hother i hi)
    exact hwritten
  refine ⟨hrun, written, hwrite, hlength.trans (by decide +kernel), ?_, ?_, ?_⟩
  · exact (hrow 1 (by decide) "\tcat\n".toList (by decide +kernel)).trans (by decide +kernel)
  · exact (hrow 2 (by decide) "ls\r\n".toList (by decide +kernel)).trans (by decide +kernel)
  · exact (hrow 3 (by decide) "echo $y".toList (by decide +kernel)).trans (by decide +kernel)

/-- Tabs are not put back, carriage returns are lost, and a finding that names no line changes
the row before the last. -/
theorem rows_without_findings_changed :
    repairedText "\techo hi\n" [] = some "        echo hi\n" ∧
      repairedText "echo hi\r\n" [] = some "echo hi\n" ∧
      repairedText "echo $x\necho $y\n" [unquotedAt (-1) 6] =
        some "echo \"$x\"\necho $y\n" := by
  decide +kernel

end Job

end ShellAudit
