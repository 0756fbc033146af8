-- SUMMARY: Where the recorded line and column of a use are those of its text in the lines.
import ShellAudit.Check.Expansion
import ShellAudit.Proofs.OutsideUses
import ShellAudit.Proofs.Positions
import ShellAudit.Proofs.Repairing

/-!
# Places in lines

The tree of a script counts rows, which line feeds end, and columns in bytes. The checks look
at lines, which other separators end too, and count characters. So a use points at its own
text in the lines exactly if every separator before it ends in a line feed and the characters
before it in its row take one byte each.
-/

namespace ShellAudit

namespace Text

/-! ## Lines before a place -/

/-- How many line separators a text has. -/
def lineBreaks : List Char → Nat
  | [] => 0
  | '\r' :: '\n' :: cs => lineBreaks cs + 1
  | c :: cs => if isLineBreak c then lineBreaks cs + 1 else lineBreaks cs

/-- What a text holds behind its last line separator. -/
def lineEnd (s : List Char) : List Char := s.rtakeWhile fun c => !isLineBreak c

/-- No character ends a line. -/
def Unbroken (s : List Char) : Prop := ∀ c ∈ s, isLineBreak c = false

instance (s : List Char) : Decidable (Unbroken s) :=
  List.decidableBAll (fun c => isLineBreak c = false) s

theorem lineBreaks_eq_zero_iff (s : List Char) : lineBreaks s = 0 ↔ Unbroken s := by
  fun_induction lineBreaks s with
  | case1 => simp [Unbroken]
  | case2 cs ih =>
    have hbroken : ¬Unbroken ('\r' :: '\n' :: cs) := fun h =>
      absurd (h '\r' List.mem_cons_self) (by decide)
    simp [hbroken]
  | case3 c cs _ hc ih =>
    have hbroken : ¬Unbroken (c :: cs) := fun h =>
      Bool.false_ne_true ((h c List.mem_cons_self).symm.trans hc)
    simp [hbroken]
  | case4 c cs _ hc ih => simp [ih, Unbroken, hc]

theorem lineEnd_cons (c : Char) (s : List Char) :
    lineEnd (c :: s) =
      if isLineBreak c = false ∧ lineBreaks s = 0 then c :: lineEnd s else lineEnd s := by
  have hall : s.all (fun c => !isLineBreak c) = true ↔ lineBreaks s = 0 := by
    rw [lineBreaks_eq_zero_iff, List.all_eq_true]
    simp only [Bool.not_eq_true']
    exact Iff.rfl
  have hcons := rtakeWhile_cons (fun c => !isLineBreak c) c s
  simp only [hall, Bool.not_eq_true'] at hcons
  exact hcons

theorem lines_ne_nil {s : List Char} (h : s ≠ []) : lines s ≠ [] := by
  fun_cases lines s with
  | case1 => exact absurd rfl h
  | case2 cs => exact List.cons_ne_nil _ _
  | case3 c cs => exact List.cons_ne_nil _ _
  | case4 c cs => cases lines cs <;> exact List.cons_ne_nil _ _

/-- Only the carriage return of a pair is read together with what follows. -/
theorem lines_cons_of_unpaired {c : Char} {s : List Char} (h : c = '\r' → s.head? ≠ some '\n') :
    lines (c :: s) = if isLineBreak c then [] :: lines s else consFirst c (lines s) := by
  rw [lines]
  rintro cs rfl rfl
  exact h rfl rfl

theorem drop_succ_consFirst (c : Char) (ps : List (List Char)) (k : Nat) :
    (consFirst c ps).drop (k + 1) = ps.drop (k + 1) := by
  cases ps <;> simp [consFirst]

theorem consFirst_prependFirst (c : Char) (s : List Char) (ps : List (List Char)) :
    consFirst c (prependFirst s ps) = prependFirst (c :: s) ps := by
  cases ps <;> rfl

/-- As many lines are over before a place as there are separators. The next one starts with
what stands behind the last of them, and goes on as the rest of the text does. -/
theorem drop_lineBreaks_lines (front : List Char) {s : List Char} (hne : s ≠ [])
    (hfeed : s.head? ≠ some '\n') :
    (lines (front ++ s)).drop (lineBreaks front) = prependFirst (lineEnd front) (lines s) := by
  fun_induction lineBreaks front with
  | case1 =>
    obtain ⟨line, rest, hlines⟩ := List.exists_cons_of_ne_nil (lines_ne_nil hne)
    rw [List.nil_append, hlines]
    rfl
  | case2 cs ih =>
    have hend : lineEnd ('\r' :: '\n' :: cs) = lineEnd cs := by
      rw [lineEnd_cons, if_neg (fun h => absurd h.1 (by decide)), lineEnd_cons,
        if_neg (fun h => absurd h.1 (by decide))]
    rw [hend, ← ih]
    rfl
  | case3 c cs hpair hc ih =>
    have hunpaired : c = '\r' → (cs ++ s).head? ≠ some '\n' := by
      intro hreturn hhead
      cases cs with
      | nil => exact hfeed hhead
      | cons d ds =>
        cases hhead
        exact hpair ds hreturn rfl
    have hend : lineEnd (c :: cs) = lineEnd cs := by
      rw [lineEnd_cons, if_neg fun h => Bool.false_ne_true (h.1.symm.trans hc)]
    rw [List.cons_append, lines_cons_of_unpaired hunpaired, if_pos hc, hend, ← ih]
    rfl
  | case4 c cs hpair hc ih =>
    have hunpaired : c = '\r' → (cs ++ s).head? ≠ some '\n' := by
      rintro rfl
      exact absurd rfl hc
    rw [List.cons_append, lines_cons_of_unpaired hunpaired, if_neg hc, lineEnd_cons]
    -- The character stands in the line of the place if no separator is between them, and
    -- otherwise in a line that is dropped.
    cases hbreaks : lineBreaks cs with
    | zero =>
      rw [hbreaks, List.drop_zero] at ih
      rw [List.drop_zero, ih, consFirst_prependFirst, if_pos ⟨by simpa using hc, rfl⟩]
    | succ k =>
      rw [hbreaks] at ih
      rw [drop_succ_consFirst, ih, if_neg fun h => by cases h.2]

theorem lines_append_of_unbroken {t : List Char} (hne : t ≠ []) (h : Unbroken t) (s : List Char) :
    lines (t ++ s) = prependFirst t (lines s) := by
  induction t with
  | nil => exact absurd rfl hne
  | cons c cs ih =>
    have hc : isLineBreak c = false := h c List.mem_cons_self
    have hunpaired : c = '\r' → (cs ++ s).head? ≠ some '\n' := by
      rintro rfl
      exact absurd hc (by decide)
    rw [List.cons_append, lines_cons_of_unpaired hunpaired, hc, if_neg Bool.false_ne_true]
    cases cs with
    | nil =>
      rw [List.nil_append]
      cases lines s <;> rfl
    | cons d ds =>
      rw [ih (List.cons_ne_nil d ds) fun e he => h e (List.mem_cons_of_mem c he),
        consFirst_prependFirst]

/-- The line that a text without separators stands in. -/
theorem getElem?_lines_append (front : List Char) {t : List Char} (hne : t ≠ []) (h : Unbroken t)
    (back : List Char) :
    ∃ more, (lines (front ++ (t ++ back)))[lineBreaks front]? =
      some (lineEnd front ++ (t ++ more)) := by
  have hfeed : (t ++ back).head? ≠ some '\n' := by
    obtain ⟨c, cs, rfl⟩ := List.exists_cons_of_ne_nil hne
    intro hhead
    cases hhead
    exact absurd (h '\n' List.mem_cons_self) (by decide)
  have hdrop := drop_lineBreaks_lines front (List.append_ne_nil_of_left_ne_nil hne back) hfeed
  rw [lines_append_of_unbroken hne h] at hdrop
  have hget := congrArg (·[0]?) hdrop
  simp only [List.getElem?_drop, Nat.add_zero] at hget
  rw [hget]
  cases lines back with
  | nil => exact ⟨[], by simp [prependFirst]⟩
  | cons line rest => exact ⟨line, by simp [prependFirst]⟩

/-- No line holds a separator. -/
theorem unbroken_of_mem_lines {s line : List Char} (h : line ∈ lines s) : Unbroken line := by
  have unbroken_nil : Unbroken [] := fun _ hc => absurd hc List.not_mem_nil
  fun_induction lines s generalizing line with
  | case1 => cases h
  | case2 cs ih | case3 c cs _ _ ih =>
    rcases List.mem_cons.1 h with rfl | h
    · exact unbroken_nil
    · exact ih h
  | case4 c cs _ hc ih =>
    have unbroken_cons {line : List Char} (hline : Unbroken line) : Unbroken (c :: line) := by
      simpa [Unbroken, hc] using hline
    cases hlines : lines cs with
    | nil =>
      rw [hlines] at h
      rw [List.mem_singleton.1 h]
      exact unbroken_cons unbroken_nil
    | cons first rest =>
      rw [hlines] at h ih
      rcases List.mem_cons.1 h with rfl | h
      · exact unbroken_cons (ih List.mem_cons_self)
      · exact ih (List.mem_cons_of_mem first h)

theorem mem_of_at? {α : Type} {xs : List α} {i : Int} {x : α} (h : at? xs i = some x) :
    x ∈ xs := by
  unfold at? at h
  split at h
  · exact List.mem_of_getElem? h
  · split at h
    · exact List.mem_of_getElem? h
    · cases h

/-! ## Rows and columns -/

/-- Every line separator of the text ends in a line feed. -/
def endsInFeeds : List Char → Bool
  | [] => true
  | '\r' :: '\n' :: cs => endsInFeeds cs
  | c :: cs => (!isLineBreak c || c = '\n') && endsInFeeds cs

theorem endsInFeeds_cons_of_unpaired {c : Char} {s : List Char}
    (h : ∀ cs, c = '\r' → s = '\n' :: cs → False) :
    endsInFeeds (c :: s) = ((!isLineBreak c || c = '\n') && endsInFeeds s) := by
  rw [endsInFeeds]
  exact h

theorem ne_feed_of_not_lineBreak {c : Char} (hc : ¬isLineBreak c = true) : c ≠ '\n' := by
  rintro rfl
  exact hc rfl

theorem count_feed_le (s : List Char) : s.count '\n' ≤ lineBreaks s := by
  fun_induction lineBreaks s with
  | case1 => exact Nat.le_refl 0
  | case2 cs ih => simpa using ih
  | case3 c cs _ hc ih =>
    rw [List.count_cons]
    split <;> omega
  | case4 c cs _ hc ih =>
    rwa [List.count_cons_of_ne (ne_feed_of_not_lineBreak hc)]

/-- There are as many lines as rows before a place exactly if line feeds end them all. -/
theorem count_feed_eq_iff (s : List Char) :
    s.count '\n' = lineBreaks s ↔ endsInFeeds s = true := by
  fun_induction lineBreaks s with
  | case1 => simp [endsInFeeds]
  | case2 cs ih => simpa [endsInFeeds] using ih
  | case3 c cs hpair hc ih =>
    rw [endsInFeeds_cons_of_unpaired hpair, hc]
    by_cases hfeed : c = '\n'
    · simpa [hfeed] using ih
    · have := count_feed_le cs
      rw [List.count_cons_of_ne hfeed]
      simp only [hfeed, Bool.not_true, decide_false, Bool.or_self, Bool.false_and,
        Bool.false_eq_true, iff_false]
      omega
  | case4 c cs hpair hc ih =>
    rw [endsInFeeds_cons_of_unpaired hpair, List.count_cons_of_ne (ne_feed_of_not_lineBreak hc), ih]
    simp [hc]

/-- Where line feeds end all lines, a row and a line start at the same place. -/
theorem rowEnd_eq_lineEnd {s : List Char} (h : endsInFeeds s = true) : rowEnd s = lineEnd s := by
  fun_induction endsInFeeds s with
  | case1 => rfl
  | case2 cs ih =>
    rw [rowEnd_cons, rowEnd_cons, lineEnd_cons, lineEnd_cons, ih h]
    simp [isLineBreak]
  | case3 c cs hpair ih =>
    rw [Bool.and_eq_true] at h
    have hbreak : c ≠ '\n' ↔ isLineBreak c = false := by
      refine ⟨fun hfeed => by simpa [hfeed] using h.1, ?_⟩
      rintro hc rfl
      exact absurd hc (by decide)
    rw [rowEnd_cons, lineEnd_cons, ih h.2, ← (count_feed_eq_iff cs).2 h.2]
    simp only [hbreak, List.count_eq_zero]

theorem length_encode_eq_iff (s : List Char) :
    (encode s).length = s.length ↔ ∀ c ∈ s, c.utf8Size = 1 := by
  induction s with
  | nil => simp
  | cons c s ih =>
    have := c.utf8Size_pos
    have := length_le_length_encode s
    rw [encode_cons, List.length_append, String.length_utf8EncodeChar, List.length_cons,
      List.forall_mem_cons, ← ih]
    omega

end Text

/-! ## Uses -/

namespace Check

theorem lineAt_ofNat {s : Script} {i : Nat} {content : List Char}
    (h : (Text.lines s.text.toList)[i]? = some content) :
    lineAt s.lines (i : Int) = .ok content := by
  rw [lineAt, Text.at?_ofNat, Script.lines, Text.linesOf, List.getElem?_map, h]
  simp

theorem lineAt_unbroken {s : Script} {line : Int} {content : List Char}
    (h : lineAt s.lines line = .ok content) : Text.Unbroken content := by
  have hmem : String.ofList content ∈ s.lines := by
    unfold lineAt at h
    split at h
    · rename_i shown hshown
      cases h
      rw [String.ofList_toList]
      exact Text.mem_of_at? hshown
    · cases h
  obtain ⟨shown, hshown, hcontent⟩ := List.mem_map.1 hmem
  rw [String.ofList_injective hcontent] at hshown
  exact Text.unbroken_of_mem_lines hshown

end Check

namespace Use

/-- The use points to the place behind `front`, in lines and in characters. -/
def PointsBehind (front : List Char) (u : Use) : Prop :=
  u.line = Text.lineBreaks front ∧ u.column = (Text.lineEnd front).length

/-- In the line that the checks look at, the name of the use stands at its column. -/
def Shown (lines : List String) (u : Use) : Prop :=
  ∃ content, Check.lineAt lines u.line = .ok content ∧
    Text.slice content u.column (u.column + u.name.length) = u.name.toList

instance (lines : List String) (u : Use) : Decidable (u.Shown lines) :=
  decidable_of_iff ((Check.lineAt lines u.line).toOption.any fun content =>
      decide (Text.slice content u.column (u.column + u.name.length) = u.name.toList)) (by
    unfold Shown
    cases Check.lineAt lines u.line <;> simp [Except.toOption])

/-- What is shown in a line holds no separator. -/
theorem Shown.unbroken {s : Script} {u : Use} (h : u.Shown s.lines) :
    Text.Unbroken u.name.toList := by
  obtain ⟨content, hcontent, hslice⟩ := h
  have hline := Check.lineAt_unbroken hcontent
  rw [← hslice]
  exact fun c hc => hline c (List.mem_of_mem_take (List.mem_of_mem_drop hc))

/-- A use that points to its name shows it, unless the name goes over the end of the line. -/
theorem PointsBehind.shown_iff {s : Script} {u : Use} {front back : List Char}
    (h : u.PointsBehind front) (htext : s.text.toList = front ++ (u.name.toList ++ back))
    (hne : u.name ≠ "") : u.Shown s.lines ↔ Text.Unbroken u.name.toList := by
  refine ⟨Shown.unbroken, fun hname => ?_⟩
  obtain ⟨hline, hcolumn⟩ := h
  obtain ⟨more, hmore⟩ := Text.getElem?_lines_append front
    (fun h => hne (String.toList_eq_nil_iff.1 h)) hname back
  refine ⟨Text.lineEnd front ++ (u.name.toList ++ more), ?_, ?_⟩
  · rw [hline]
    exact Check.lineAt_ofNat (htext ▸ hmore)
  · have hstop : ((Text.lineEnd front).length : Int) + u.name.length =
        ((Text.lineEnd front ++ u.name.toList).length : Int) := by
      rw [List.length_append, String.length_toList, Int.natCast_add]
    rw [hcolumn, hstop, Text.slice_ofNat _ (by simp) (by simp), ← List.append_assoc, List.take_left,
      List.drop_left]

/-- Rows are lines and bytes are characters before a place exactly if every separator ends in
a line feed and the characters of the row before the place take one byte each. -/
theorem pointsBehind_iff {u : Use} {front : List Char} (hline : u.line = front.count '\n')
    (hcolumn : u.column = (Text.encode (Text.rowEnd front)).length) :
    u.PointsBehind front ↔
      Text.endsInFeeds front = true ∧ ∀ c ∈ Text.rowEnd front, c.utf8Size = 1 := by
  rw [PointsBehind, hline, hcolumn, Int.natCast_inj, Int.natCast_inj, Text.count_feed_eq_iff]
  refine and_congr_right fun hfeeds => ?_
  rw [← Text.rowEnd_eq_lineEnd hfeeds, Text.length_encode_eq_iff]

end Use

/-- The uses that are recorded outside of command strings are uses of the survey. Each is made
for an expansion of the script itself or of a function that a command string has defined. In
the script itself it has the row and the byte column of its text. These are the line and the
column of the text exactly if every separator before it ends in a line feed and the characters
before it in its row take one byte each; and then the line that the checks look at shows the
text in that place, unless the text goes over the end of the line. -/
theorem outside_use_shown_where_plain {g : Grammar} {s : Script} {root : Node}
    (hroot : g.parse? s.text = some root) :
    (Walk.outsideUses g s.text).Sublist ((Walk.script g s.text).exec {}).2.used ∧
      ∀ u ∈ Walk.outsideUses g s.text, u.name ≠ "" → ∃ n, Walk.MadeFor n u ∧
        (Walk.InDefinition g.parse? root n ∨ root.Below n ∧
          ∃ front back, s.text.toList = front ++ (u.name.toList ++ back) ∧
            u.line = front.count '\n' ∧
            u.column = (Text.encode (Text.rowEnd front)).length ∧
            (u.PointsBehind front ↔
              Text.endsInFeeds front = true ∧ ∀ c ∈ Text.rowEnd front, c.utf8Size = 1) ∧
            (u.PointsBehind front → (u.Shown s.lines ↔ Text.Unbroken u.name.toList))) := by
  refine ⟨Walk.outsideUses_sublist g s.text, fun u hu hne => ?_⟩
  obtain ⟨n, made, hn⟩ := Walk.outsideUses_madeFor hroot hu
  refine ⟨n, made, hn.symm.imp_right fun hbelow => ⟨hbelow, ?_⟩⟩
  have stands : root.Every (Node.StandsIn s.text.toList) := by
    obtain ⟨tree, -, rfl⟩ := Option.map_eq_some_iff.1 hroot
    rw [Tree.bytes_eq_encode]
    exact Tree.resolve_standsIn s.text.toList tree
  obtain ⟨front, rest, htext, hrow, hcolumn, back, rfl⟩ := stands.below hbelow u.name made.text hne
  have hline : u.line = front.count '\n' := by rw [made.line, hrow]
  have hcolumn : u.column = (Text.encode (Text.rowEnd front)).length := by
    rw [made.column, hcolumn]
  exact ⟨front, back, htext, hline, hcolumn, Use.pointsBehind_iff hline hcolumn,
    fun hpoints => hpoints.shown_iff htext hne⟩

/-- The script `echo "é"` and, behind a carriage return and a line feed, `echo "$x"`. -/
def pairedScript : Script := ⟨none, "echo \"é\"\r\necho \"$x\"", []⟩

def pairedTree : Tree :=
  ⟨.program, 0, 20,
    [⟨.command, 0, 9, [⟨.commandName, 0, 4, [⟨.word, 0, 4, []⟩]⟩, ⟨.string, 5, 9, []⟩]⟩,
      ⟨.command, 11, 20,
        [⟨.commandName, 11, 15, [⟨.word, 11, 15, []⟩]⟩,
          ⟨.string, 16, 20, [⟨.simpleExpansion, 17, 19, [⟨.variableName, 18, 19, []⟩]⟩]⟩]⟩]⟩

def pairedTable : Grammar := ⟨[(pairedScript.text, some pairedTree)]⟩

/-- The use in the second line is shown there: what takes two bytes stands in the first one. -/
theorem outside_use_shown_where_plain_paired :
    let u : Use := ⟨"$x", 1, 6⟩
    u ∈ Walk.outsideUses pairedTable pairedScript.text ∧ u.Shown pairedScript.lines ∧
      ∃ front back, pairedScript.text.toList = front ++ (u.name.toList ++ back) ∧
        (u.PointsBehind front ↔
          Text.endsInFeeds front = true ∧ ∀ c ∈ Text.rowEnd front, c.utf8Size = 1) := by
  intro u
  have hroot : pairedTable.parse? pairedScript.text =
    some (pairedTree.resolve (Tree.bytes pairedScript.text)) := rfl
  have hruns : (pairedTree.resolve (Tree.bytes pairedScript.text)).Every Node.RunsNoText := by
    decide +kernel
  have hu : u ∈ Walk.outsideUses pairedTable pairedScript.text := by decide +kernel
  obtain ⟨n, -, hdefined | ⟨-, front, back, htext, -, -, hpoints, -⟩⟩ :=
    (outside_use_shown_where_plain hroot).2 u hu (by decide)
  · exact absurd hdefined (Walk.not_inDefinition hruns)
  · exact ⟨hu, by decide +kernel, front, back, htext, hpoints⟩

/-- The script `echo é "$x"`. -/
def accentedScript : Script := ⟨none, "echo é \"$x\"", []⟩

def accentedTable : Grammar :=
  ⟨[(accentedScript.text, some ⟨.program, 0, 12,
    [⟨.command, 0, 12,
      [⟨.commandName, 0, 4, [⟨.word, 0, 4, []⟩]⟩, ⟨.word, 5, 7, []⟩,
        ⟨.string, 8, 12, [⟨.simpleExpansion, 9, 11, [⟨.variableName, 10, 11, []⟩]⟩]⟩]⟩]⟩)]⟩

/-- The script `echo a` and, behind a form feed and a line feed, `echo $x`. -/
def fedScript : Script := ⟨none, "echo a\x0c\necho $x", []⟩

def fedTable : Grammar :=
  ⟨[(fedScript.text, some ⟨.program, 0, 15,
    [⟨.command, 0, 6, [⟨.commandName, 0, 4, [⟨.word, 0, 4, []⟩]⟩, ⟨.word, 5, 6, []⟩]⟩,
      ⟨.command, 8, 15,
        [⟨.commandName, 8, 12, [⟨.word, 8, 12, []⟩]⟩,
          ⟨.simpleExpansion, 13, 15, [⟨.variableName, 14, 15, []⟩]⟩]⟩]⟩)]⟩

/-- Behind a character of two bytes the column is one too many, and the quotes around the
expansion are not seen. Behind a form feed the line is one too few. -/
theorem accented_and_fed_uses_unshown :
    Walk.outsideUses accentedTable accentedScript.text = [⟨"$x", 0, 9⟩] ∧
      ¬(⟨"$x", 0, 9⟩ : Use).Shown accentedScript.lines ∧
      (⟨"$x", 0, 8⟩ : Use).Shown accentedScript.lines ∧
      Check.isQuoted accentedScript.lines ⟨"$x", 0, 9⟩ = .ok false ∧
      Check.isQuoted accentedScript.lines ⟨"$x", 0, 8⟩ = .ok true ∧
      Walk.outsideUses fedTable fedScript.text = [⟨"$x", 1, 5⟩] ∧
      ¬(⟨"$x", 1, 5⟩ : Use).Shown fedScript.lines ∧
      (⟨"$x", 2, 5⟩ : Use).Shown fedScript.lines := by
  decide +kernel

end ShellAudit
