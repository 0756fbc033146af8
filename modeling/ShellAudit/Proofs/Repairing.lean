-- SUMMARY: Repairs return if every finding to be repaired stands in its row, behind a dollar sign.
import Mathlib.Data.List.Basic
import ShellAudit.Proofs.Deduplication
import ShellAudit.Repair

/-!
# Repairs that return

A repair makes a row longer, and the columns of the findings after it are moved by as
much. So a column that lies in the row goes on to do so; and a dollar sign at or before
a column goes on to stand there, since none moves further than the row has grown.
-/

namespace ShellAudit

namespace Text

/-! ## Searching for one character -/

theorem findLast?_isSome {c : Char} {s : List Char} (h : c ∈ s) :
    (findLast? [c] s).isSome = true := by
  induction s with
  | nil => cases h
  | cons d ds ih =>
    rw [findLast?]
    split
    · rfl
    · rename_i hnone
      rcases List.mem_cons.1 h with rfl | h
      · simp [List.isPrefixOf]
      · have := ih h
        rw [hnone] at this
        cases this

theorem isPrefixOf_of_findFrom? {needle s : List Char} {start i : Nat}
    (h : findFrom? needle start s = some i) : start ≤ i ∧ needle <+: s.drop i := by
  unfold findFrom? at h
  split at h
  · obtain ⟨j, hj, rfl⟩ := Option.map_eq_some_iff.1 h
    have hprefix := isPrefixOf_of_find? hj
    rw [List.drop_drop, Nat.add_comm] at hprefix
    exact ⟨Nat.le_add_left start j, List.isPrefixOf_iff_prefix.1 hprefix⟩
  · cases h

theorem getElem?_of_findFrom? {c : Char} {start i : Nat} {s : List Char}
    (h : findFrom? [c] start s = some i) : start ≤ i ∧ s[i]? = some c := by
  obtain ⟨hle, rest, hrest⟩ := isPrefixOf_of_findFrom? h
  refine ⟨hle, ?_⟩
  rw [← List.head?_drop, ← hrest]
  rfl

/-! ## Slices of a text -/

theorem before_ofNat {α : Type} (xs : List α) (i : Nat) : before xs (i : Int) = xs.take i := by
  simp only [before, bound, Int.natCast_nonneg, if_true, Int.toNat_natCast]
  exact List.take_eq_take_min.symm

theorem after_ofNat {α : Type} (xs : List α) (i : Nat) : after xs (i : Int) = xs.drop i := by
  simp only [after, bound, Int.natCast_nonneg, if_true, Int.toNat_natCast]
  by_cases h : i ≤ xs.length
  · rw [Nat.min_eq_left h]
  · rw [Nat.min_eq_right (by omega), List.drop_length, List.drop_eq_nil_of_le (by omega)]

theorem slice_ofNat {α : Type} (xs : List α) {start stop : Nat} (h : start ≤ stop)
    (hstop : stop ≤ xs.length) :
    slice xs (start : Int) (stop : Int) = (xs.take stop).drop start := by
  simp only [slice, bound, Int.natCast_nonneg, if_true, Int.toNat_natCast]
  rw [Nat.min_eq_left hstop, Nat.min_eq_left (by omega)]

theorem drop_take_append_drop {α : Type} (xs : List α) {start stop : Nat} (h : start ≤ stop) :
    (xs.take stop).drop start ++ xs.drop stop = xs.drop start := by
  have hrest : xs.drop stop = (xs.drop start).drop (stop - start) := by
    rw [List.drop_drop, Nat.add_sub_cancel' h]
  rw [List.drop_take, hrest, List.take_append_drop]

end Text

namespace Quoting

theorem check_returns (line : List Char) (quote : Char) {start stop : Nat}
    (hstart : start ≤ line.length) :
    ∃ quoted, check line quote (start : Int) (stop : Int) = .ok quoted := by
  have hopening : ∃ opening, opening? line quote (start : Int) = .ok opening := by
    unfold opening?
    split
    · exact ⟨none, rfl⟩
    · rw [if_neg (by omega)]
      exact ⟨_, rfl⟩
  have hcloses : ∃ closing, closes line quote (stop : Int) = .ok closing := by
    unfold closes
    rw [if_pos (Int.natCast_nonneg stop)]
    exact ⟨_, rfl⟩
  obtain ⟨opening, hopening⟩ := hopening
  obtain ⟨closing, hcloses⟩ := hcloses
  simp only [check, hopening, hcloses, bind, Except.bind]
  split <;> split <;> exact ⟨_, rfl⟩

end Quoting

namespace Repair

/-! ## Growth of a row -/

/-- The second row is the first, grown by some characters. No dollar sign has moved
further than that, and no tab has come in. -/
structure Grown (row grown : List Char) (more : Nat) : Prop where
  length : grown.length = row.length + more
  dollar : ∀ k, '$' ∈ row.take k → '$' ∈ grown.take (k + more)
  tab : '\t' ∉ row → '\t' ∉ grown

theorem Grown.refl (row : List Char) : Grown row row 0 := ⟨rfl, fun _ h => h, id⟩

theorem Grown.trans {row grown grown' : List Char} {more more' : Nat} (h : Grown row grown more)
    (h' : Grown grown grown' more') : Grown row grown' (more + more') where
  length := by rw [h'.length, h.length, Nat.add_assoc]
  dollar k hk := by
    rw [← Nat.add_assoc]
    exact h'.dollar _ (h.dollar k hk)
  tab := h'.tab ∘ h.tab

theorem mem_take_mono {c : Char} {s : List Char} {i j : Nat} (h : c ∈ s.take i) (hij : i ≤ j) :
    c ∈ s.take j :=
  (List.take_prefix_take_left hij).subset h

/-- Putting longer pieces, without tabs, in the place of pieces without dollar signs
makes a row grow. -/
theorem grown_of_pieces (front left left' inner right right' rest : List Char) (more : Nat)
    (hleft : '$' ∉ left) (hright : '$' ∉ right) (htabs : '\t' ∉ left' ++ right')
    (hmore : left'.length + right'.length = left.length + right.length + more)
    (hle : right.length ≤ right'.length) :
    Grown (front ++ (left ++ (inner ++ (right ++ rest))))
      (front ++ (left' ++ (inner ++ (right' ++ rest)))) more where
  length := by
    simp only [List.length_append]
    omega
  dollar k hk := by
    simp only [List.take_append, List.mem_append] at hk ⊢
    rcases hk with hk | hk | hk | hk | hk
    · exact .inl (mem_take_mono hk (by omega))
    · exact absurd (List.mem_of_mem_take hk) hleft
    · exact .inr (.inr (.inl (mem_take_mono hk (by omega))))
    · exact absurd (List.mem_of_mem_take hk) hright
    · exact .inr (.inr (.inr (.inr (mem_take_mono hk (by omega)))))
  tab htab := by
    simp only [List.mem_append, not_or] at htab htabs ⊢
    exact ⟨htab.1, htabs.1, htab.2.2.1, htabs.2, htab.2.2.2.2⟩

/-! ## Remedies -/

theorem quoteRun_grown (line : List Char) (position : Nat) :
    Grown line (quoteRun line (position : Int)) 2 := by
  have hrest := List.prefix_iff_eq_append.1 (List.takeWhile_prefix inRun (l := line.drop position))
  have hgrown := grown_of_pieces (line.take position) [] ['"']
    ((line.drop position).takeWhile inRun) [] ['"']
    ((line.drop position).drop ((line.drop position).takeWhile inRun).length) 2
    List.not_mem_nil List.not_mem_nil (by decide) rfl (Nat.zero_le 1)
  rw [List.nil_append, List.nil_append, hrest, List.take_append_drop] at hgrown
  unfold quoteRun
  rw [Text.before_ofNat, Text.after_ofNat]
  simpa using hgrown

/-- The dollar sign that a column means, if there is one at the column or before it. -/
theorem dollarAt_returns {line : List Char} {column : Nat} (hcolumn : column < line.length)
    (hdollar : '$' ∈ line.take (column + 1)) :
    ∃ dollar : Nat, dollarAt line (column : Int) = .ok (dollar : Int) := by
  unfold dollarAt
  rw [Text.at?_ofNat, List.getElem?_eq_getElem hcolumn]
  simp only
  split
  · exact ⟨column, rfl⟩
  · rename_i hc
    rw [List.take_succ_eq_append_getElem hcolumn, List.mem_append, List.mem_singleton] at hdollar
    have hbefore : '$' ∈ line.take column := hdollar.resolve_right (Ne.symm hc)
    have hpos : column ≠ 0 := by
      rintro rfl
      cases hbefore
    rw [if_neg (by omega), Int.toNat_natCast]
    obtain ⟨i, hi⟩ := Option.isSome_iff_exists.1 (Text.findLast?_isSome hbefore)
    rw [hi]
    exact ⟨i, rfl⟩

theorem dollarAt_ofNat {line : List Char} {column : Nat} {dollar : Int}
    (h : dollarAt line (column : Int) = .ok dollar) : ∃ k : Nat, dollar = k := by
  unfold dollarAt at h
  split at h
  · cases h
  · split at h
    · exact ⟨column, (Except.ok.inj h).symm⟩
    · split at h
      · cases h
      · split at h
        · exact ⟨_, (Except.ok.inj h).symm⟩
        · cases h

theorem variableIn_returns {line : List Char} {column : Nat} (hcolumn : column < line.length)
    (hdollar : '$' ∈ line.take (column + 1)) (htab : '\t' ∉ line) :
    ∃ result, variableIn line line (column : Int) = .ok result := by
  obtain ⟨quoted, hquoted⟩ :=
    @Quoting.check_returns line '"' column (column + 1) (Nat.le_of_lt hcolumn)
  obtain ⟨dollar, hdollar⟩ := dollarAt_returns hcolumn hdollar
  have hcast : ((column : Int) + 1) = ((column + 1 : Nat) : Int) := by omega
  unfold variableIn
  rw [hcast, hquoted, hdollar, List.count_eq_zero_of_not_mem htab]
  cases quoted with
  | true => exact ⟨(line, 0), rfl⟩
  | false => exact ⟨(quoteRun line dollar, 2), rfl⟩

/-- In a line without tabs a variable is left as it is, or the run at its dollar sign is quoted. -/
theorem variableIn_cases {line out : List Char} {column : Int} {more : Nat} (htab : '\t' ∉ line)
    (h : variableIn line line column = .ok (out, more)) :
    (out = line ∧ more = 0) ∨
      ∃ dollar, dollarAt line column = .ok dollar ∧ out = quoteRun line dollar ∧ more = 2 := by
  unfold variableIn at h
  rw [List.count_eq_zero_of_not_mem htab] at h
  cases hcheck : Quoting.check line '"' column (column + 1) with
  | error fault => simp [hcheck, bind, Except.bind] at h
  | ok quoted =>
    cases quoted with
    | true =>
      simp only [hcheck, bind, Except.bind, if_true, pure, Except.pure] at h
      cases h
      exact .inl ⟨rfl, rfl⟩
    | false =>
      cases hdollar : dollarAt line column with
      | error fault => simp [hcheck, hdollar, bind, Except.bind] at h
      | ok dollar =>
        simp only [hcheck, hdollar, restoreTabs, bind, Except.bind, pure, Except.pure,
          Bool.false_eq_true, if_false] at h
        cases h
        exact .inr ⟨dollar, rfl, rfl, rfl⟩

/-! ### Substitutions -/

theorem backticks_grown {row : List Char} {start : Nat} (hstart : row[start]? = some '\x60') :
    Grown row (backticks row (start : Int)).1 (backticks row (start : Int)).2 := by
  obtain ⟨hlt, hchar⟩ := List.getElem?_eq_some_iff.1 hstart
  have hcast : ((start : Int) + 1) = ((start + 1 : Nat) : Int) := by omega
  have hbound : Text.bound row.length ((start : Int) + 1) = start + 1 := by
    rw [Text.bound, if_pos (by omega)]
    omega
  unfold backticks
  rw [hbound]
  split
  · exact .refl row
  · rename_i stop hstop
    obtain ⟨hle, hclose⟩ := Text.getElem?_of_findFrom? hstop
    obtain ⟨hstop, hclose⟩ := List.getElem?_eq_some_iff.1 hclose
    have hgrown := grown_of_pieces (row.take start) ['\x60'] "\"$(".toList
      ((row.take stop).drop (start + 1)) ['\x60'] ")\"".toList (row.drop (stop + 1)) 3
      (by decide) (by decide) (by decide) rfl (by decide)
    have hrow : row.take start ++ (['\x60'] ++ ((row.take stop).drop (start + 1) ++
        (['\x60'] ++ row.drop (stop + 1)))) = row := by
      have hrest := (List.drop_eq_getElem_cons hstop).symm
      have hinner := (List.drop_eq_getElem_cons hlt).symm
      rw [hclose] at hrest
      rw [hchar] at hinner
      rw [List.singleton_append, List.singleton_append, hrest, Text.drop_take_append_drop row hle,
        hinner, List.take_append_drop]
    rw [hrow] at hgrown
    rw [Text.before_ofNat, hcast, Text.slice_ofNat row hle (Nat.le_of_lt hstop)]
    simpa using hgrown

theorem matching?_bounds {depth position last : Int} {s : List Char}
    (h : matching? depth position s = some last) :
    position ≤ last ∧ last < position + s.length := by
  induction s generalizing depth position with
  | nil => cases h
  | cons c cs ih =>
    rw [List.length_cons, Int.natCast_add, Int.natCast_one]
    rw [matching?] at h
    split at h
    · have := ih h
      omega
    · split at h
      · split at h
        · cases h
          omega
        · have := ih h
          omega
      · have := ih h
        omega

theorem charsFrom_ofNat (line : List Char) (start : Nat) :
    charsFrom line (start : Int) = line.drop start := by
  rw [charsFrom, if_pos (Int.natCast_nonneg start), Text.after_ofNat]

theorem parentheses_of_unmatched {line : List Char} {start : Nat}
    (h : matching? 0 (start : Int) (line.drop start) = none) :
    parentheses line (start : Int) = .ok (line, 0) := by
  unfold parentheses
  rw [if_neg (by omega), charsFrom_ofNat, h]

theorem parentheses_of_matching? {line : List Char} {start stop : Nat}
    (h : matching? 0 (start : Int) (line.drop start) = some (stop : Int)) :
    parentheses line (start : Int) =
      .ok (line.take start ++ '"' :: (line.take (stop + 1)).drop start ++
        '"' :: line.drop (stop + 1), 2) := by
  obtain ⟨hle, hlt⟩ := matching?_bounds h
  rw [List.length_drop] at hlt
  have hcast : ((stop : Int) + 1) = ((stop + 1 : Nat) : Int) := by omega
  unfold parentheses
  rw [if_neg (by omega), charsFrom_ofNat, h]
  simp only [hcast, Text.before_ofNat, Text.after_ofNat]
  rw [Text.slice_ofNat line (by omega) (by omega)]

theorem parentheses_grown (line : List Char) (start : Nat) :
    ∃ repaired more, parentheses line (start : Int) = .ok (repaired, more) ∧
      Grown line repaired more := by
  cases hmatching : matching? 0 (start : Int) (line.drop start) with
  | none => exact ⟨line, 0, parentheses_of_unmatched hmatching, .refl line⟩
  | some last =>
    obtain ⟨hle, -⟩ := matching?_bounds hmatching
    obtain ⟨stop, rfl⟩ : ∃ stop : Nat, last = stop := ⟨last.toNat, by omega⟩
    have hgrown := grown_of_pieces (line.take start) [] ['"'] ((line.take (stop + 1)).drop start) []
      ['"'] (line.drop (stop + 1)) 2 List.not_mem_nil List.not_mem_nil (by decide) rfl
      (Nat.zero_le 1)
    rw [List.nil_append, List.nil_append, Text.drop_take_append_drop line (by omega),
      List.take_append_drop] at hgrown
    exact ⟨_, 2, parentheses_of_matching? hmatching, by simpa using hgrown⟩

theorem substitutionIn_returns {line : List Char} {column : Nat} (hcolumn : column < line.length) :
    ∃ result, substitutionIn line (column : Int) = .ok result := by
  unfold substitutionIn
  rw [Text.at?_ofNat, List.getElem?_eq_getElem hcolumn]
  simp only
  split
  · exact ⟨_, rfl⟩
  · split
    · obtain ⟨repaired, more, hrepaired, -⟩ := parentheses_grown line column
      exact ⟨_, hrepaired⟩
    · exact ⟨_, rfl⟩

/-- A substitution is left as it is, or it is one in backticks or one in parentheses. -/
theorem substitutionIn_cases {line out : List Char} {column : Int} {more : Nat}
    (h : substitutionIn line column = .ok (out, more)) :
    (out = line ∧ more = 0) ∨
      (Text.at? line column = some '\x60' ∧ backticks line column = (out, more)) ∨
      (Text.at? line column = some '$' ∧ parentheses line column = .ok (out, more)) := by
  unfold substitutionIn at h
  split at h
  · cases h
  · rename_i c hc
    split at h
    · rename_i htick
      exact .inr (.inl ⟨htick ▸ hc, Except.ok.inj h⟩)
    · split at h
      · rename_i hdollar
        exact .inr (.inr ⟨hdollar ▸ hc, h⟩)
      · cases h
        exact .inl ⟨rfl, rfl⟩

/-- A remedy at a column that is not counted from the end makes the line grow as it says. -/
theorem Remedy.apply_grown {remedy : Remedy} {line out : List Char} {column more : Nat}
    (htab : '\t' ∉ line) (h : remedy.apply line (column : Int) = .ok (out, more)) :
    Grown line out more := by
  cases remedy with
  | quoteVariable =>
    rcases variableIn_cases htab h with ⟨rfl, rfl⟩ | ⟨dollar, hdollar, rfl, rfl⟩
    · exact .refl _
    · obtain ⟨k, rfl⟩ := dollarAt_ofNat hdollar
      exact quoteRun_grown line k
  | quoteSubstitution =>
    rcases substitutionIn_cases h with ⟨rfl, rfl⟩ | ⟨htick, hresult⟩ | ⟨-, hresult⟩
    · exact .refl _
    · have hgrown := backticks_grown ((Text.at?_ofNat line column).symm.trans htick)
      rwa [hresult] at hgrown
    · obtain ⟨repaired, more', hrepaired, hgrown⟩ := parentheses_grown line column
      cases Except.ok.inj (hresult.symm.trans hrepaired)
      exact hgrown

/-! ## Rows -/

/-- If there is a remedy for the finding, its column lies in the row, and a variable is
to be quoted only at a dollar sign or behind one. -/
def Fits (row : List Char) (f : Finding) : Prop :=
  ∀ remedy, Remedy.ofDescription? f.description = some remedy →
    ∃ column : Nat, f.column = some ((column : Int) + 1) ∧ column < row.length ∧
      (remedy = .quoteVariable → '$' ∈ row.take (column + 1))

/-- What has grown out of a row without tabs can be repaired wherever the row can. -/
theorem repairLine_returns {row line : List Char} {added : Nat} (htab : '\t' ∉ row)
    (hgrown : Grown row line added) {fs : List Finding} (hfits : ∀ f ∈ fs, Fits row f) :
    ∃ repaired, repairLine line added fs = .ok repaired := by
  induction fs generalizing line added with
  | nil => exact ⟨line, rfl⟩
  | cons f fs ih =>
    have rest {line : List Char} {added : Nat} (h : Grown row line added) :=
      ih h fun g hg => hfits g (List.mem_cons_of_mem f hg)
    unfold repairLine
    cases hremedy : Remedy.ofDescription? f.description with
    | none => exact rest hgrown
    | some remedy =>
      obtain ⟨column, hcolumn, hlt, hdollar⟩ := hfits f List.mem_cons_self remedy hremedy
      have hcast : ((added : Int) + (column + 1) - 1) = ((column + added : Nat) : Int) := by omega
      have hlt : column + added < line.length := by
        rw [hgrown.length]
        omega
      have applied : ∃ result, remedy.apply line ((column + added : Nat) : Int) = .ok result := by
        cases remedy with
        | quoteVariable =>
          refine variableIn_returns hlt ?_ (hgrown.tab htab)
          rw [Nat.add_right_comm]
          exact hgrown.dollar _ (hdollar rfl)
        | quoteSubstitution => exact substitutionIn_returns hlt
      obtain ⟨⟨repaired, more⟩, happly⟩ := applied
      simp only [hcolumn, hcast, happly]
      exact rest (hgrown.trans (Remedy.apply_grown (hgrown.tab htab) happly))

theorem repairLine_of_no_remedy {line : List Char} {added : Nat} {fs : List Finding}
    (h : ∀ f ∈ fs, Remedy.ofDescription? f.description = none) :
    repairLine line added fs = .ok line := by
  induction fs with
  | nil => rfl
  | cons f fs ih =>
    rw [repairLine, h f List.mem_cons_self]
    exact ih fun g hg => h g (List.mem_cons_of_mem f hg)

/-- A finding about a row that it fits. -/
def InRow (rows : List String) (f : Finding) : Prop :=
  ∃ (i : Nat) (row : String), f.line = (i : Int) + 1 ∧ f.column.isSome = true ∧
    rows[i]? = some row ∧ Fits row.toList f

/-- A finding about a row, or one about the script as a whole. -/
def Standing (rows : List String) (f : Finding) : Prop :=
  InRow rows f ∨
    (f.line = -1 ∧ Remedy.ofDescription? f.description = none ∧ 2 ≤ rows.length)

/-- Findings that the repair of rows returns for. -/
structure Repairable (rows : List String) (fs : List Finding) : Prop where
  standing : ∀ f ∈ fs, Standing rows f
  /-- Findings without a column cannot be put in order. -/
  single : (fs.filter (·.line = -1)).length ≤ 1
  tabs : ∀ row ∈ rows, '\t' ∉ row.toList

theorem exec_bind {α β : Type} (repair : Repair α) (next : α → Repair β) (rows : List String) :
    (repair >>= next).exec rows =
      match repair.exec rows with
      | (.ok a, rows) => (next a).exec rows
      | (.error fault, rows) => (.error fault, rows) := by
  simp only [exec, ExceptT.run_bind, StateT.run_bind]
  rcases (ExceptT.run repair).run rows with ⟨_ | _, _⟩ <;> rfl

theorem exec_liftExcept {α : Type} (x : Except Fault α) (rows : List String) :
    (liftExcept x).exec rows = (x, rows) := rfl

theorem exec_get (rows : List String) : exec get rows = (.ok rows, rows) := rfl

theorem exec_modify (f : List String → List String) (rows : List String) :
    exec (modify f) rows = (.ok (), f rows) := rfl

theorem exec_repairRow {index : Int} {fs sorted : List Finding} {rows : List String} {row : String}
    {repaired : List Char} (hsorted : inOrder fs = .ok sorted)
    (hrow : Text.at? rows index = some row)
    (hrepaired : repairLine row.toList 0 sorted = .ok repaired) :
    (repairRow index fs).exec rows = (.ok (), replaceAt rows index (String.ofList repaired)) := by
  simp only [repairRow, exec_bind, exec_liftExcept, hsorted, exec_get, hrow, hrepaired, exec_modify]

theorem mem_of_inOrder {fs sorted : List Finding} (h : inOrder fs = .ok sorted) {f : Finding}
    (hf : f ∈ sorted) : f ∈ fs := by
  unfold inOrder at h
  split at h
  · cases h
  · cases h
    exact List.mem_mergeSort.1 hf

theorem inOrder_returns {fs : List Finding}
    (h : fs.length ≤ 1 ∨ ∀ f ∈ fs, f.column.isSome = true) :
    ∃ sorted, inOrder fs = .ok sorted := by
  unfold inOrder
  rw [if_neg]
  · exact ⟨_, rfl⟩
  · rintro ⟨hlength, hany⟩
    rcases h with h | h
    · omega
    · obtain ⟨f, hf, hnone⟩ := List.any_eq_true.1 hany
      rw [Option.isNone_iff_eq_none] at hnone
      have := h f hf
      rw [hnone] at this
      cases this

section

variable {rows current : List String} {fs : List Finding} (h : Repairable rows fs)
  (hlength : current.length = rows.length)

include h

/-- The row of a finding is repaired. -/
theorem repairRow_returns {i : Nat} {row : String} (hrow : rows[i]? = some row)
    (hcurrent : current[i]? = rows[i]?) :
    ∃ repaired, (repairRow (i : Int) (fs.filter (·.line - 1 = (i : Int)))).exec current =
      (.ok (), replaceAt current i repaired) := by
  have fits : ∀ g ∈ fs.filter (·.line - 1 = (i : Int)),
      g.column.isSome = true ∧ Fits row.toList g := by
    intro g hg
    obtain ⟨hg, hline⟩ := List.mem_filter.1 hg
    rw [decide_eq_true_eq] at hline
    rcases h.standing g hg with ⟨j, row', hj, hcolumn, hrow', hfits⟩ | ⟨hscript, -⟩
    · obtain rfl : j = i := by omega
      rw [hrow] at hrow'
      cases hrow'
      exact ⟨hcolumn, hfits⟩
    · omega
  obtain ⟨sorted, hsorted⟩ := inOrder_returns (.inr fun g hg => (fits g hg).1)
  obtain ⟨repaired, hrepaired⟩ := repairLine_returns (h.tabs row (List.mem_of_getElem? hrow))
    (.refl row.toList) fun g hg => (fits g (mem_of_inOrder hsorted hg)).2
  refine ⟨_, exec_repairRow hsorted ?_ hrepaired⟩
  rw [Text.at?_ofNat, hcurrent, hrow]

/-- The finding about the script as a whole is looked up in the row before the last,
which stays as it is. -/
theorem repairRow_script (hrows : 2 ≤ current.length) :
    (repairRow (-2) (fs.filter (·.line - 1 = -2))).exec current = (.ok (), current) := by
  have hfilter : fs.filter (·.line - 1 = -2) = fs.filter (·.line = -1) :=
    List.filter_congr fun g _ => by rw [decide_eq_decide]; omega
  have noRemedy : ∀ g ∈ fs.filter (·.line = -1), Remedy.ofDescription? g.description = none := by
    intro g hg
    obtain ⟨hg, hline⟩ := List.mem_filter.1 hg
    rw [decide_eq_true_eq] at hline
    rcases h.standing g hg with ⟨i, row, hi, -⟩ | ⟨-, hnone, -⟩
    · omega
    · exact hnone
  obtain ⟨sorted, hsorted⟩ := inOrder_returns (.inl h.single)
  have hlt : current.length - 2 < current.length := by omega
  have hrow : Text.at? current (-2) = some current[current.length - 2] := by
    rw [Text.at?, if_neg (by omega), if_pos (by omega), ← List.getElem?_eq_getElem hlt]
    congr
    omega
  rw [hfilter, exec_repairRow hsorted hrow
    (repairLine_of_no_remedy fun g hg => noRemedy g (mem_of_inOrder hsorted hg)),
    String.ofList_toList]
  have hindex : (if (0 : Int) ≤ -2 then (-2 : Int).toNat else (current.length + (-2 : Int)).toNat) =
      current.length - 2 := by
    rw [if_neg (by omega)]
    omega
  rw [replaceAt, hindex, List.set_getElem_self]

include hlength

/-- Repairing the rows that are left returns as long as they are as they were. -/
theorem repairRows_returns {indices : List Int} (hnodup : indices.Nodup)
    (hindices : ∀ i ∈ indices, ∃ f ∈ fs, f.line - 1 = i)
    (hcurrent : ∀ i : Nat, (i : Int) ∈ indices → current[i]? = rows[i]?) :
    ∃ repaired, (repairRows fs indices).exec current = (.ok (), repaired) := by
  induction indices generalizing current with
  | nil => exact ⟨current, rfl⟩
  | cons index rest ih =>
    obtain ⟨hindex, hrest⟩ := List.nodup_cons.1 hnodup
    have hindices' := fun i hi => hindices i (List.mem_cons_of_mem index hi)
    obtain ⟨f, hf, hfindex⟩ := hindices index List.mem_cons_self
    rw [repairRows, exec_bind]
    rcases h.standing f hf with ⟨i, row, hi, -, hrow, -⟩ | ⟨hscript, -, hrows⟩
    · obtain rfl : index = (i : Int) := by omega
      obtain ⟨repaired, hrepaired⟩ := repairRow_returns h hrow (hcurrent i List.mem_cons_self)
      have hset : replaceAt current i repaired = current.set i repaired := by
        rw [replaceAt, if_pos (Int.natCast_nonneg i), Int.toNat_natCast]
      simp only [hrepaired, hset]
      refine ih (by rw [List.length_set, hlength]) hrest hindices' fun j hj => ?_
      have hne : i ≠ j := by
        rintro rfl
        exact hindex hj
      rw [List.getElem?_set_ne hne]
      exact hcurrent j (List.mem_cons_of_mem _ hj)
    · obtain rfl : index = -2 := by omega
      rw [repairRow_script h (by omega)]
      exact ih hlength hrest hindices' fun j hj => hcurrent j (List.mem_cons_of_mem _ hj)

end

theorem all_returns {rows : List String} {fs : List Finding} (h : Repairable rows fs) :
    ∃ repaired, (all fs).exec rows = (.ok (), repaired) := by
  refine repairRows_returns h rfl (Finding.nodup_eraseDups _) (fun i hi => ?_) fun _ _ => rfl
  obtain ⟨f, hf, rfl⟩ := List.mem_map.1 (List.mem_eraseDups.1 hi)
  exact ⟨f, hf, rfl⟩

end Repair

end ShellAudit
