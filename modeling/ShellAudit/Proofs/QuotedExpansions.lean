-- SUMMARY: What the repair of a variable puts between quotes, and that it closes the finding it was made for.
import ShellAudit.Check.Expansion
import ShellAudit.Proofs.QuotedRuns

/-!
# Quoting an expansion

The repair of a variable puts the dollar sign and the run of name characters behind it between
quotes. Where the expansion is such a run, the new quotes are the nearest ones on both sides, and
the check that asked for the repair is content, whatever other quotes the line has. The run knows
nothing of the other forms of expansions: before a brace, and before three of the special
parameters, it ends behind the dollar sign.
-/

namespace ShellAudit

namespace Quoting

/-- It does not matter where the search for the closing quote starts among other characters. -/
theorem closes_skip {line mid : List Char} {quote : Char} {i : Nat} (hat : mid <+: line.drop i)
    (hmid : quote ∉ mid) :
    closes line quote (i : Int) = closes line quote ((i + mid.length : Nat) : Int) := by
  obtain ⟨rest, hrest⟩ := hat
  have hbehind : line.drop (i + mid.length) = rest := by
    rw [← List.drop_drop, ← hrest, List.drop_left]
  simp only [closes, Int.natCast_nonneg, if_true, Int.toNat_natCast, hbehind, ← hrest]
  simp [hmid]

end Quoting

namespace Check

/-- Whether a use stands between double quotes in a line. -/
def doublyQuoted (line : List Char) (use : Use) : Except Fault Bool :=
  Quoting.check line '"' use.column (use.column + use.name.length)

theorem startsLine_returns {lines : List String} {use : Use} {line : List Char}
    (hline : lineAt lines use.line = .ok line) : ∃ starts, startsLine lines use = .ok starts := by
  unfold startsLine
  split
  · exact ⟨false, rfl⟩
  · rw [hline]
    exact ⟨_, rfl⟩

/-- A use between quotes is not reported. -/
theorem unquotedUse_of_isQuoted {script : Script} {use : Use} {line : List Char}
    (hline : lineAt script.lines use.line = .ok line)
    (h : isQuoted script.lines use = .ok true) : unquotedUse script use = .ok [] := by
  obtain ⟨starts, hstarts⟩ := startsLine_returns hline
  unfold unquotedUse
  split
  · rfl
  · cases starts <;>
      simp only [hstarts, h, bind, Except.bind, if_true, Bool.false_eq_true, if_false, pure,
        Except.pure]

theorem unquotedUse_of_doublyQuoted {script : Script} {use : Use} {line : List Char}
    (hline : lineAt script.lines use.line = .ok line) (h : doublyQuoted line use = .ok true) :
    unquotedUse script use = .ok [] := by
  refine unquotedUse_of_isQuoted hline ?_
  rw [doublyQuoted] at h
  simp only [isQuoted, hline, h, bind, Except.bind, if_true, pure, Except.pure]

end Check

namespace Repair

/-! ## Runs of name characters -/

/-- A text that is made of name characters stands in the run at its place. -/
theorem prefix_runAt {line e : List Char} {k : Nat} (hat : e <+: line.drop k)
    (he : ∀ c ∈ e, inRun c = true) : e <+: runAt line k := by
  obtain ⟨rest, hrest⟩ := hat
  rw [runAt, ← hrest, List.takeWhile_append_of_pos he]
  exact List.prefix_append e _

theorem lt_length_of_head?_drop {line : List Char} {k : Nat} {c : Char}
    (h : (line.drop k).head? = some c) : k < line.length := by
  rw [List.head?_drop] at h
  exact (List.getElem?_eq_some_iff.1 h).1

theorem length_quotedAt (line : List Char) (k : Nat) :
    (quotedAt line k).length = line.length + 2 := by
  have hpieces := congrArg List.length (take_append_runAt line k)
  simp only [quotedAt, List.length_append, List.length_cons] at hpieces ⊢
  omega

/-- The name of a use: a dollar sign with one or more name characters behind it. -/
def IsVariable (name : String) : Prop :=
  ∃ c cs, name.toList = '$' :: c :: cs ∧ ∀ d ∈ c :: cs, nameChar d = true

theorem IsVariable.inRun {name : String} (h : IsVariable name) :
    ∀ c ∈ name.toList, inRun c = true := by
  obtain ⟨c, cs, hname, hchars⟩ := h
  intro d hd
  rw [hname] at hd
  rcases List.mem_cons.1 hd with rfl | hd
  · rfl
  · exact inRun_of_nameChar (hchars d hd)

/-- The check looks for the closing quote behind the whole name, the repair behind its dollar
sign. -/
theorem check_dollar_of_doublyQuoted {line : List Char} {use : Use} {k : Nat}
    (hcolumn : use.column = k) (hname : IsVariable use.name)
    (hat : use.name.toList <+: line.drop k) :
    Quoting.check line '"' (k : Int) ((k : Int) + 1) = Check.doublyQuoted line use := by
  obtain ⟨c, cs, hletters, hchars⟩ := hname
  have hbehind : c :: cs <+: line.drop (k + 1) := by
    obtain ⟨rest, hrest⟩ := hat
    refine ⟨rest, ?_⟩
    rw [← List.drop_drop, ← hrest, hletters]
    rfl
  have hquote : '"' ∉ c :: cs := fun hmem => absurd (hchars _ hmem) (by decide)
  have hstop : ((k + 1 + (c :: cs).length : Nat) : Int) = use.column + use.name.length := by
    rw [hcolumn, ← String.length_toList, hletters]
    simp only [List.length_cons]
    omega
  have hcloses : Quoting.closes line '"' ((k : Int) + 1) =
      Quoting.closes line '"' (use.column + use.name.length) := by
    rw [← hstop]
    exact Quoting.closes_skip hbehind hquote
  unfold Check.doublyQuoted Quoting.check
  rw [hcloses, hcolumn]

/-- A variable that is found not to stand between double quotes is repaired, and in the repaired
line, where it has moved by one, it is found to stand between them. So nothing is left to report
about it, wherever the other quotes of the line are. -/
theorem variableIn_closes_finding {line : List Char} (htab : '\t' ∉ line) {use : Use} {k : Nat}
    (hcolumn : use.column = k) (hname : IsVariable use.name)
    (hat : use.name.toList <+: line.drop k) (hopen : Check.doublyQuoted line use = .ok false) :
    let moved := { use with column := use.column + 1 }
    ∃ out, variableIn line line use.column = .ok (out, 2) ∧ out ≠ line ∧
      Check.doublyQuoted out moved = .ok true ∧
      (∀ f : Finding, f.description = Wording.unquotedVariable → f.column = some (use.column + 1) →
        repairLine line 0 [f] = .ok out) ∧
      ∀ script : Script, Check.lineAt script.lines use.line = .ok out →
        Check.unquotedUse script moved = .ok [] := by
  intro moved
  have hcheck := (check_dollar_of_doublyQuoted hcolumn hname hat).trans hopen
  have hrun := prefix_runAt hat hname.inRun
  obtain ⟨c, cs, hletters, -⟩ := hname
  have hdollar : (line.drop k).head? = some '$' := by
    obtain ⟨rest, hrest⟩ := hat
    rw [← hrest, hletters]
    rfl
  have hlt : k < line.length := lt_length_of_head?_drop hdollar
  have hrepaired : variableIn line line use.column = .ok (quotedAt line k, 2) := by
    rw [hcolumn]
    exact variableIn_of_no_tab hdollar hcheck htab
  have hquoted : Check.doublyQuoted (quotedAt line k) moved = .ok true := by
    have hbetween := Quoting.check_between (line.take k) (behindRun line k)
      (fun hc => absurd (inRun_of_mem_runAt hc) (by decide))
      (fun hc => absurd (inRun_of_mem_runAt hc) (by decide)) (Nat.zero_le _) hrun.length_le
    have hstop : ((k + 1 + use.name.toList.length : Nat) : Int) =
        use.column + 1 + use.name.length := by
      rw [hcolumn, String.length_toList]
      omega
    rw [List.length_take_of_le (Nat.le_of_lt hlt), hstop] at hbetween
    simpa [Check.doublyQuoted, moved, hcolumn, quotedAt] using hbetween
  refine ⟨quotedAt line k, hrepaired, fun hsame => ?_, hquoted, fun f hdescription hf => ?_,
    fun script hline => Check.unquotedUse_of_doublyQuoted hline hquoted⟩
  · have hlength := length_quotedAt line k
    rw [hsame] at hlength
    omega
  · have hremedy : Remedy.ofDescription? f.description = some .quoteVariable := by
      rw [hdescription]
      rfl
    have hplace : ((0 : Nat) : Int) + (use.column + 1) - 1 = use.column := by omega
    rw [repairLine, hremedy]
    simp only [hf, hplace, Remedy.apply, hrepaired, bind, Except.bind]
    rfl

/-- The quotes around a command substitution are not those of a variable in it. -/
theorem variableIn_closes_finding_substituted :
    let line := "echo \"$(ls $x)\" \"b\"".toList
    let use : Use := ⟨"$x", 0, 11⟩
    Check.doublyQuoted line use = .ok false ∧
      ∃ out, variableIn line line 11 = .ok (out, 2) ∧
        out = "echo \"$(ls \"$x\")\" \"b\"".toList ∧
        Check.doublyQuoted out ⟨"$x", 0, 12⟩ = .ok true := by
  intro line use
  have hopen : Check.doublyQuoted line use = .ok false := by decide +kernel
  have hname : IsVariable use.name := by
    refine ⟨'x', [], by decide, fun d hd => ?_⟩
    rw [List.mem_singleton.1 hd]
    rfl
  have hat : use.name.toList <+: line.drop 11 := by decide +kernel
  obtain ⟨out, hrepaired, -, hquoted, -⟩ :=
    variableIn_closes_finding (by decide +kernel) rfl hname hat hopen
  have hcomputed : variableIn line line 11 =
      .ok ("echo \"$(ls \"$x\")\" \"b\"".toList, 2) := by decide +kernel
  have hsame := Except.ok.inj (hrepaired.symm.trans hcomputed)
  exact ⟨hopen, out, hrepaired, congrArg Prod.fst hsame, hquoted⟩

/-! ## Forms of expansions -/

/-- Texts in which every brace has its partner. -/
inductive Balanced : List Char → Prop
  | nil : Balanced []
  | char {c : Char} {s : List Char} : c ≠ '\x7b' → c ≠ '\x7d' → Balanced s → Balanced (c :: s)
  | braces {s t : List Char} : Balanced s → Balanced t → Balanced ('\x7b' :: s ++ '\x7d' :: t)

/-- The parameters whose name is a single character that is no letter. -/
def specialParameters : List Char := "?!$-#@*0123456789".toList

/-- The forms of a parameter expansion. -/
inductive IsExpansion : List Char → Prop
  | named {c : Char} {cs : List Char} : c.isAlpha = true ∨ c = '_' →
      (∀ d ∈ cs, d.isAlphanum = true ∨ d = '_') → IsExpansion ('$' :: c :: cs)
  | special {c : Char} : c ∈ specialParameters → IsExpansion ['$', c]
  | braced {inner : List Char} : Balanced inner → IsExpansion ('$' :: '\x7b' :: inner ++ ['\x7d'])

/-- The characters behind a dollar sign that start an expansion and are in no run. -/
def beyondRun : List Char := ['\x7b', '?', '!', '-']

/-- The expansion is one in braces, or that of a parameter whose name is in no run. -/
def LeavesRun (e : List Char) : Prop := ∃ c ∈ beyondRun, e[1]? = some c

theorem IsExpansion.inRun_or_leavesRun {e : List Char} (h : IsExpansion e) :
    (∀ c ∈ e, inRun c = true) ∨ LeavesRun e := by
  cases h with
  | @named c cs hfirst hrest =>
    have hchars : IsVariable (String.ofList ('$' :: c :: cs)) := by
      refine ⟨c, cs, String.toList_ofList, fun d hd => ?_⟩
      have hd : d.isAlphanum = true ∨ d = '_' := by
        rcases List.mem_cons.1 hd with rfl | hd
        · exact hfirst.imp_left fun halpha => by simp [Char.isAlphanum, halpha]
        · exact hrest d hd
      rcases hd with hd | rfl
      · simp [nameChar, hd]
      · decide
    exact .inl (by simpa using hchars.inRun)
  | @special c hc =>
    have hforms : specialParameters.all (fun c => inRun c || beyondRun.contains c) = true := by
      decide +kernel
    rcases Bool.or_eq_true_iff.1 (List.all_eq_true.1 hforms c hc) with hrun | hbeyond
    · refine .inl fun d hd => ?_
      simp only [List.mem_cons, List.not_mem_nil, or_false] at hd
      rcases hd with rfl | rfl
      · rfl
      · exact hrun
    · exact .inr ⟨c, List.contains_iff_mem.1 hbeyond, rfl⟩
  | braced _ => exact .inr ⟨'\x7b', by decide, rfl⟩

theorem IsExpansion.head? {e : List Char} (h : IsExpansion e) : e.head? = some '$' := by
  cases h <;> rfl

/-- Where the expansion leaves the run, the run is the dollar sign alone. -/
theorem runAt_of_leavesRun {line e : List Char} {k : Nat} (hhead : e.head? = some '$')
    (hat : e <+: line.drop k) (h : LeavesRun e) : runAt line k = ['$'] := by
  obtain ⟨c, hc, hsecond⟩ := h
  obtain ⟨rest, hrest⟩ := hat
  have hforms : beyondRun.all (!inRun ·) = true := by decide
  have hbeyond : inRun c = false := by simpa using List.all_eq_true.1 hforms c hc
  have hdollar : inRun '$' = true := rfl
  obtain ⟨e, rfl⟩ : ∃ tail, e = '$' :: c :: tail := by
    rcases e with _ | ⟨d, _ | ⟨d', tail⟩⟩
    · cases hhead
    · cases hsecond
    · cases hhead
      cases hsecond
      exact ⟨tail, rfl⟩
  rw [runAt, ← hrest, List.cons_append, List.cons_append, List.takeWhile_cons, hdollar,
    List.takeWhile_cons, hbeyond]
  rfl

/-- An expansion stands in the run at its place unless it leaves it. -/
theorem IsExpansion.prefix_runAt_iff {line e : List Char} {k : Nat} (he : IsExpansion e)
    (hat : e <+: line.drop k) : e <+: runAt line k ↔ ¬LeavesRun e := by
  constructor
  · intro hstands hleaves
    rw [runAt_of_leavesRun he.head? hat hleaves] at hstands
    obtain ⟨c, -, hsecond⟩ := hleaves
    have hlong : 1 < e.length := (List.getElem?_eq_some_iff.1 hsecond).1
    exact absurd hstands.length_le (by simp; omega)
  · intro hstays
    exact prefix_runAt hat (he.inRun_or_leavesRun.resolve_right hstays)

/-! ## Restoring tabs -/

/-- Tabs take the place of blanks before the first quote. -/
theorem restoreTabs_before_quote {count : Nat} {front rest out : List Char}
    (h : restoreTabs 0 count (front ++ '"' :: rest) = .ok out) :
    ∃ front', out = front' ++ '"' :: rest ∧ ∀ c ∈ front', c ∈ front ∨ c = '\t' := by
  induction count generalizing front with
  | zero =>
    cases h
    exact ⟨front, rfl, fun c hc => .inl hc⟩
  | succ count ih =>
    rw [restoreTabs] at h
    split at h
    · rename_i hblank
      have hroom : Text.tabWidth ≤ front.length := by
        by_contra hshort
        obtain ⟨n, hn⟩ : ∃ n, Text.tabWidth - front.length = n + 1 :=
          ⟨Text.tabWidth - front.length - 1, by omega⟩
        rw [List.drop_zero, List.take_append, hn, List.all_append, Bool.and_eq_true] at hblank
        exact absurd (List.all_eq_true.1 hblank.2 '"' List.mem_cons_self) (by decide)
      rw [List.take_zero, List.nil_append, Nat.zero_add, List.drop_append_of_le_length hroom,
        ← List.cons_append] at h
      obtain ⟨front', hout, hfront'⟩ := ih h
      refine ⟨front', hout, fun c hc => ?_⟩
      rcases hfront' c hc with hc | hc
      · rcases List.mem_cons.1 hc with rfl | hc
        · exact .inr rfl
        · exact .inl (List.mem_of_mem_drop hc)
      · exact .inr hc
    · cases h

/-- However the tabs are restored, what is quoted stays so. -/
theorem restoreTabs_quotedAt {line out : List Char} {k count : Nat}
    (hk : (line.drop k).head? = some '$')
    (h : restoreTabs (tabPosition (k : Int) (runAt line k).length) count (quotedAt line k) =
      .ok out) :
    ∃ front, out = front ++ '"' :: runAt line k ++ '"' :: behindRun line k ∧
      ∀ c ∈ front, c ∈ line ∨ c = '\t' := by
  have hrun : ∃ tail, runAt line k = '$' :: tail := by
    have hdollar : inRun '$' = true := rfl
    obtain ⟨rest, hrest⟩ := List.head?_eq_some_iff.1 hk
    rw [runAt, hrest, List.takeWhile_cons, hdollar]
    exact ⟨_, rfl⟩
  obtain ⟨tail, hrun⟩ := hrun
  by_cases hzero : k = 0
  · -- The dollar sign is not blank, so there is nothing to restore a tab for.
    subst hzero
    have hposition : tabPosition ((0 : Nat) : Int) (runAt line 0).length = 1 := by
      simp [tabPosition, hrun]
      omega
    rw [hposition] at h
    cases count with
    | zero =>
      cases h
      exact ⟨[], rfl, fun c hc => absurd hc List.not_mem_nil⟩
    | succ count =>
      rw [restoreTabs] at h
      simp [quotedAt, hrun, Text.tabWidth, (by decide : Text.isBlank '$' = false)] at h
  · have hposition : tabPosition (k : Int) (runAt line k).length = 0 := by
      simp only [tabPosition]
      rw [if_neg (by omega : ¬(k : Int) = 0), if_neg (by omega)]
    rw [hposition, quotedAt, List.append_assoc, List.cons_append] at h
    obtain ⟨front, hout, hfront⟩ := restoreTabs_before_quote h
    refine ⟨front, by simpa using hout, fun c hc => (hfront c hc).imp_left List.mem_of_mem_take⟩

/-! ## Expansions between the new quotes -/

/-- In a line without double quotes, the repair at an expansion puts the longest run there between
its two quotes, and leaves all that follows as it is. The whole expansion stands between them
exactly if it is neither in braces nor one of three special parameters; otherwise nothing but its
dollar sign does. A line without tabs is always repaired. -/
theorem expansion_quoted_whole_iff {line e : List Char} {k : Nat} (hquote : '"' ∉ line)
    (he : IsExpansion e) (hat : e <+: line.drop k) :
    let run := runAt line k
    let rest := behindRun line k
    line.take k ++ (run ++ rest) = line ∧
      ('\t' ∉ line →
        variableIn line line k = .ok (line.take k ++ '"' :: run ++ '"' :: rest, 2)) ∧
      (∀ out added, variableIn line line k = .ok (out, added) →
        added = 2 ∧ ∃ front, out = front ++ '"' :: run ++ '"' :: rest ∧ '"' ∉ front) ∧
      (e <+: run ↔ ¬LeavesRun e) ∧ (LeavesRun e → run = ['$']) := by
  intro run rest
  have hdollar : (line.drop k).head? = some '$' := by
    obtain ⟨behind, hbehind⟩ := hat
    rw [← hbehind, List.head?_append, he.head?]
    rfl
  have hlt : k < line.length := lt_length_of_head?_drop hdollar
  have hcheck : Quoting.check line '"' (k : Int) ((k : Int) + 1) = .ok false := by
    simpa using Quoting.check_behind [] hquote (Nat.le_of_lt hlt)
  refine ⟨take_append_runAt line k, variableIn_of_no_tab hdollar hcheck, fun out added hout => ?_,
    he.prefix_runAt_iff hat, runAt_of_leavesRun he.head? hat⟩
  rw [variableIn_of_unquoted hdollar hcheck] at hout
  cases hrestored : restoreTabs (tabPosition (k : Int) (runAt line k).length) (line.count '\t')
      (quotedAt line k) with
  | error fault =>
    rw [hrestored] at hout
    cases hout
  | ok restored =>
    rw [hrestored] at hout
    cases hout
    obtain ⟨front, hfront, hchars⟩ := restoreTabs_quotedAt hdollar hrestored
    refine ⟨rfl, front, hfront, fun hmem => ?_⟩
    rcases hchars _ hmem with hline | htab
    · exact hquote hline
    · exact absurd htab (by decide)

/-- An element of an array is split behind its dollar sign, the name behind it is quoted whole. -/
theorem expansion_quoted_whole_iff_element :
    let line := "echo $\x7ba[0]\x7d $n_1".toList
    let element := "$\x7ba[0]\x7d".toList
    let name := "$n_1".toList
    (¬element <+: runAt line 5 ∧ LeavesRun element ∧
        variableIn line line 5 = .ok ("echo \"$\"\x7ba[0]\x7d $n_1".toList, 2)) ∧
      (name <+: runAt line 13 ∧ ¬LeavesRun name ∧
        variableIn line line 13 = .ok ("echo $\x7ba[0]\x7d \"$n_1\"".toList, 2)) := by
  intro line element name
  have hquote : '"' ∉ line := by decide +kernel
  have htab : '\t' ∉ line := by decide +kernel
  have helement : IsExpansion element := by
    have hinner : Balanced ['a', '[', '0', ']'] :=
      .char (by decide) (by decide) <| .char (by decide) (by decide) <|
        .char (by decide) (by decide) <| .char (by decide) (by decide) .nil
    have hform : element = '$' :: '\x7b' :: ['a', '[', '0', ']'] ++ ['\x7d'] := by decide
    rw [hform]
    exact .braced hinner
  have hname : IsExpansion name := by
    have hform : name = '$' :: 'n' :: ['_', '1'] := by decide
    rw [hform]
    exact .named (.inl rfl)
      (List.forall_mem_cons.2 ⟨.inr rfl, List.forall_mem_singleton.2 (.inl rfl)⟩)
  have hleaves : LeavesRun element := ⟨'\x7b', by decide, by decide⟩
  have hstays : ¬LeavesRun name := by
    rintro ⟨c, hc, hsecond⟩
    have hn : name[1]? = some 'n' := by decide
    rw [hn] at hsecond
    cases hsecond
    exact absurd hc (by decide)
  obtain ⟨-, hsplit, -, hsplit_iff, -⟩ :=
    expansion_quoted_whole_iff hquote helement (by decide +kernel : element <+: line.drop 5)
  obtain ⟨-, hwhole, -, hwhole_iff, -⟩ :=
    expansion_quoted_whole_iff hquote hname (by decide +kernel : name <+: line.drop 13)
  refine ⟨⟨fun hstands => hsplit_iff.1 hstands hleaves, hleaves, (hsplit htab).trans ?_⟩,
    hwhole_iff.2 hstays, hstays, (hwhole htab).trans ?_⟩ <;> decide +kernel

/-- Behind the dollar sign of these expansions comes a quote, and the rest of them behind it. -/
theorem expansions_split_behind_dollar :
    (["$\x7bx\x7d", "$?", "$!", "$-"].all fun e =>
      let line := "echo ".toList ++ e.toList
      decide (variableIn line line 5 = .ok ("echo \"$\"".toList ++ e.toList.tail, 2))) = true := by
  decide +kernel

end Repair

end ShellAudit
