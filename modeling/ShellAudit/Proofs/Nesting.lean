-- SUMMARY: The positions of what is found in a command string, in a string inside another one too.
import ShellAudit.Proofs.Positions
import ShellAudit.Proofs.Provenance

/-!
# Positions in command strings

The tree of a command string starts anew at column zero, so a walk of it is told where
the string stands: behind the name of the shell one blank, `-c`, a blank and a quote are
taken for granted. Where the words are separated so, this is right for a command of the
script itself. For a command that stands in a string already, the column of that string
is added a second time, since the column of the command contains it.
-/

namespace ShellAudit

namespace Text

/-- The text stands in the row at a column, which counts bytes. -/
def StandsAt (row : List Char) (column : Nat) (text : List Char) : Prop :=
  ∃ front back, row = front ++ back ∧ (encode front).length = column ∧ text <+: back

/-- What stands in a text stands behind what is written before it. -/
theorem StandsAt.embed {s text : List Char} {column : Nat} (h : StandsAt s column text)
    (before after : List Char) :
    StandsAt (before ++ (s ++ after)) ((encode before).length + column) text := by
  obtain ⟨front, back, rfl, rfl, rest, rfl⟩ := h
  exact ⟨before ++ front, text ++ (rest ++ after), by simp, by simp, _, rfl⟩

theorem rowEnd_eq_self {s : List Char} (h : '\n' ∉ s) : rowEnd s = s := by
  induction s with
  | nil => rfl
  | cons c s ih =>
    obtain ⟨hc, hs⟩ := List.ne_and_not_mem_of_not_mem_cons h
    rw [rowEnd_cons, if_pos ⟨Ne.symm hc, hs⟩, ih hs]

end Text

/-- The nodes of a text of one line are in its row, each where its text stands. -/
theorem Grammar.every_standsAt {g : Grammar} {text : List Char} {root : Node}
    (hroot : g.parse? (String.ofList text) = some root) (hline : '\n' ∉ text) :
    root.Every fun n => n.row = 0 ∧ ∀ written, n.text = some written → written ≠ "" →
      Text.StandsAt text n.column written.toList := by
  obtain ⟨tree, -, rfl⟩ := Option.map_eq_some_iff.1 hroot
  rw [Tree.bytes_eq_encode, String.toList_ofList]
  have rows : (tree.resolve (Text.encode text)).Every (·.row = 0) := by
    refine Tree.resolve_every (fun kind start stop children => ?_) tree
    have hfeed : (Text.encode text).count 10 = 0 := by
      rw [Text.count_encode, List.count_eq_zero_of_not_mem hline]
    exact Nat.le_zero.1 (hfeed ▸ (List.take_sublist start _).count_le 10)
  refine (rows.and (Tree.resolve_standsIn text tree)).imp ?_
  rintro n ⟨hrow, hstands⟩
  refine ⟨hrow, fun written hwritten hne => ?_⟩
  obtain ⟨front, back, rfl, -, hcolumn, hprefix⟩ := hstands written hwritten hne
  rw [Text.rowEnd_eq_self fun h => hline (List.mem_append_left back h)] at hcolumn
  exact ⟨front, back, rfl, hcolumn.symm, hprefix⟩

namespace Walk

theorem Draft.read_named (draft : Draft) (ns : List Node) :
    (draft.read ns).name = draft.name ∧ (draft.read ns).column = draft.column ∨
      ∃ c ∈ ns, c.kind = .commandName ∧ (draft.read ns).column = c.column := by
  induction ns generalizing draft with
  | nil => exact .inl ⟨rfl, rfl⟩
  | cons n ns ih =>
    rcases ih (draft.add n) with ⟨hname, hcolumn⟩ | ⟨c, hc, hkind, hcolumn⟩
    · by_cases hkind : n.kind = .commandName
      · refine .inr ⟨n, List.mem_cons_self, hkind, ?_⟩
        have hadd : (draft.add n).column = n.column := by
          rw [Draft.add, if_pos hkind]
          rfl
        exact hcolumn.trans hadd
      · have hsame : (draft.add n).name = draft.name ∧ (draft.add n).column = draft.column := by
          rw [Draft.add, if_neg hkind]
          split <;> exact ⟨rfl, rfl⟩
        exact .inl ⟨hname.trans hsame.1, hcolumn.trans hsame.2⟩
    · exact .inr ⟨c, List.mem_cons_of_mem n hc, hkind, hcolumn⟩

/-- The node that a record points to: the node it is made for or, for a command, the name. -/
theorem Makes.position {M : String → String → Prop} {ctx : Context} {n : Node} {e : Entry}
    (h : Makes M ctx n e) : e.line = n.lineIn ctx ∧
      ∃ p, (p = n ∨ p ∈ n.children ∧ p.kind = .commandName) ∧ e.column = p.columnIn ctx := by
  cases h with
  | command hkind hnamed =>
    rcases Draft.read_named {} n.children with ⟨hname, -⟩ | ⟨c, hc, hname, hcolumn⟩
    · exact absurd hname hnamed
    · refine ⟨rfl, c, .inr ⟨hc, hname⟩, ?_⟩
      simp only [Entry.column, Node.draft, hcolumn, Node.columnIn]
  | subscript => exact ⟨Int.add_sub_cancel _ _, n, .inl rfl, rfl⟩
  | _ => exact ⟨rfl, n, .inl rfl, rfl⟩

/-- Without a jump, a walk stays in its tree and in its context. -/
theorem Comes.here {parse? : String → Option Node} {known : FunctionTable} {start ctx : Context}
    {root n : Node} (h : Comes parse? known start root 0 ctx n) : ctx = start ∧ root.Below n := by
  generalize hjumps : 0 = jumps at h
  induction h with
  | root => exact ⟨rfl, .self root⟩
  | child _ hc ih =>
    obtain ⟨rfl, hbelow⟩ := ih hjumps
    exact ⟨rfl, hbelow.step hc⟩
  | text | known | defined => cases hjumps

/-- Without a jump, what is found in a text of one line is made for a node of its tree: in the
line that the walk is told, and behind the column that it is told. -/
theorem Found.placed {M : String → String → Prop} {g : Grammar} {known : FunctionTable}
    {start : Context} {text : List Char} {root : Node} {e : Entry}
    (hroot : g.parse? (String.ofList text) = some root) (hline : '\n' ∉ text)
    (h : Found M g.parse? known start root 0 e) :
    ∃ n p, root.Below n ∧ (p = n ∨ p ∈ n.children ∧ p.kind = .commandName) ∧ Makes M start n e ∧
      e.line = start.line ∧ e.column = start.column + p.column ∧
      ∀ written, p.text = some written → written ≠ "" →
        Text.StandsAt text p.column written.toList := by
  have stands := Grammar.every_standsAt hroot hline
  cases h with
  | @made _ _ n _ hcomes hmakes =>
    obtain ⟨rfl, hn⟩ := hcomes.here
    obtain ⟨heline, p, hp, hecolumn⟩ := hmakes.position
    have hbelow : root.Below p := by
      rcases hp with rfl | ⟨hp, -⟩
      · exact hn
      · exact hn.step hp
    refine ⟨n, p, hn, hp, hmakes, ?_, hecolumn, (stands.below hbelow).2⟩
    simp [heline, Node.lineIn, (stands.below hn).1]

/-- The state that a command string is walked from. Unless the string is verbatim, a mark
has come off. -/
def State.opened (s : State) (line : Int) (script : String) : State :=
  if isVerbatim script.toList then s else { s with assigned := unmarkFirst line s.assigned }

@[simp] theorem State.functions_opened (s : State) (line : Int) (script : String) :
    (s.opened line script).functions = s.functions := by
  unfold State.opened
  split <;> rfl

theorem State.mem_opened {s : State} {line : Int} {script : String} {e : Entry}
    (h : e ∈ (s.opened line script).toSurvey) : ∃ d ∈ s.toSurvey, d.Kept e := by
  unfold State.opened at h
  split at h
  · exact ⟨e, h, .refl e⟩
  · exact Survey.mem_unmark h

theorem exec_opened (line : Int) (script : String) (s : State) :
    (when (isVerbatim script.toList = false) (unmark line)).exec s =
      (.ok (), s.opened line script) := by
  unfold State.opened Walk.when
  cases isVerbatim script.toList <;> rfl

/-- What the walk of a command string leaves is left, with the simple variables of the string
behind it if the walk stops with a fault. -/
theorem exec_commandString {parse? : String → Option Node} {visitRoot : Node → Walk Unit}
    {line : Int} {script : String} {root : Node} (hne : script ≠ "")
    (hroot : parse? (String.ofList (unquote script.toList)) = some root) (s : State) :
    let walked := (visitRoot root).exec (s.opened line script)
    let left := ((commandString parse? visitRoot line script).exec s).2
    left = walked.2 ∨ (∃ fault, walked.1 = .error fault) ∧
      left = { walked.2 with used := walked.2.used ++ simpleUses line script } := by
  intro walked left
  have hleft : left = ((recovering (visitRoot root) (recordSimple line script)).exec
      (s.opened line script)).2 := by
    simp only [left, commandString, if_neg hne, recovering, exec_tryCatch, exec_bind, exec_opened,
      hroot]
  rw [hleft]
  simp only [recovering, exec_tryCatch]
  rcases hwalked : (visitRoot root).exec (s.opened line script) with ⟨fault | _, u⟩
  · simp only [walked, hwalked]
    split
    · exact .inl rfl
    · exact .inr ⟨⟨fault, rfl⟩, rfl⟩
  · simp [walked, hwalked]

theorem unquote_quoted {quote : Char} (h : quote = '"' ∨ quote = '\x27') (text : List Char) :
    unquote (quote :: text ++ [quote]) = text := by
  have hlast : (quote :: text ++ [quote]).getLast? = some quote := List.getLast?_concat
  unfold unquote
  rw [if_pos (by rw [hlast]; rcases h with rfl | rfl <;> simp)]
  simp

/-- What stands in the text that a command runs stands in the row of the command, behind the
name, `-c` and a quote. -/
theorem standsAt_script {name : String} {quote : Char} {text written : List Char} {column : Nat}
    (hname : name ∈ shells) (hquote : quote = '"' ∨ quote = '\x27')
    (h : Text.StandsAt text column written) (before after : List Char) :
    Text.StandsAt (before ++ (name.toList ++ " -c ".toList ++ [quote] ++ (text ++ quote :: after)))
      ((Text.encode before).length + name.length + 5 + column) written := by
  have hbytes : (Text.encode (before ++ (name.toList ++ " -c ".toList ++ [quote]))).length =
      (Text.encode before).length + name.length + 5 := by
    have hshell : (Text.encode name.toList).length = name.length :=
      (by decide : ∀ shell ∈ shells, (Text.encode shell.toList).length = shell.length) name hname
    have hone : (Text.encode [quote]).length = 1 := by rcases hquote with rfl | rfl <;> decide
    have hoption : (Text.encode " -c ".toList).length = 4 := by decide
    simp only [Text.encode_append, List.length_append, hshell, hone, hoption]
    omega
  have embedded := h.embed (before ++ (name.toList ++ " -c ".toList ++ [quote])) (quote :: after)
  rwa [hbytes, List.append_assoc] at embedded

theorem runNested_eq {jump : Jump → Walk Unit} {ctx : Context} {c : Command} {script : String}
    (hname : c.name ∈ shells) (hscript : scriptArgument? c.arguments = some script) :
    runNested jump ctx c = jump (.script script
      ⟨ctx.function, c.line, ctx.column + c.column + c.name.length + 1 + 4⟩) := by
  simp [runNested, hscript, hname]

/-- The records for a command string are those that its walk finds. If the walk stops with a
fault, the simple variables of the string are among them. -/
theorem mem_commandString {parse? : String → Option Node} {budget : Nat} {inner : Context}
    {s : State} {script : String} {root : Node} {e : Entry} (hne : script ≠ "")
    (hroot : parse? (String.ofList (unquote script.toList)) = some root)
    (he : e ∈ ((commandString parse? (visit (follow parse? budget) inner false) inner.line
      script).exec s).2.toSurvey) :
    (∃ d ∈ s.toSurvey, d.Kept e) ∨
      (∃ jumps, Found Scope.Means parse? s.functions inner root jumps e) ∨
      (∃ u ∈ simpleUses inner.line script, e = .use u) ∧
        ∃ fault, ((visit (follow parse? budget) inner false root).exec
          (s.opened inner.line script)).1 = .error fault := by
  let begun := s.opened inner.line script
  have hfunctions : begun.functions = s.functions := s.functions_opened inner.line script
  have naming : Naming Scope.Means (fun _ => True) (LookedUp parse? begun.functions inner root) :=
    ⟨fun _ => .inl rfl, fun _ => Scope.means_of_qualified?, fun _ _ => trivial⟩
  have traced := visit_traced naming (.inl fun _ => trivial) trivial budget false
  have walked {e : Entry}
      (he : e ∈ ((visit (follow parse? budget) inner false root).exec begun).2.toSurvey) :
      (∃ d ∈ s.toSurvey, d.Kept e) ∨
        ∃ jumps, Found Scope.Means parse? s.functions inner root jumps e := by
    rcases traced.entries e he with ⟨d, hd, hde⟩ | hfound
    · obtain ⟨b, hb, hbd⟩ := State.mem_opened hd
      exact .inl ⟨b, hb, hbd.trans hde⟩
    · exact .inr (hfunctions ▸ hfound)
  rcases exec_commandString hne hroot s with hleft | ⟨hfault, hleft⟩
  · rw [hleft] at he
    exact (walked he).imp_right .inl
  · rw [hleft] at he
    rcases Survey.mem_addUses he with he | hu
    · exact (walked he).imp_right .inl
    · exact .inr (.inr ⟨hu, hfault⟩)

/-- A command that stands at some column of a row and tells a shell to run a quoted text of
one line has the records for the text made in its own line. Those for the nodes of the text
itself are made at the columns at which the nodes stand in the row, plus the column that
the walk was told for the command's own tree. So they are where the nodes stand if and only
if this was zero. -/
theorem runNested_columns (g : Grammar) (budget : Nat) (ctx : Context) (c : Command) (s : State)
    (before after text : List Char) (quote : Char) (rest : List String) (root : Node)
    (hname : c.name ∈ shells) (hquote : quote = '"' ∨ quote = '\x27')
    (harguments : c.arguments = "-c" :: String.ofList (quote :: text ++ [quote]) :: rest)
    (hcolumn : c.column = (Text.encode before).length) (hline : '\n' ∉ text)
    (hroot : g.parse? (String.ofList text) = some root) :
    let row := before ++ (c.name.toList ++ " -c ".toList ++ [quote] ++ (text ++ quote :: after))
    let place (k : Nat) : Nat := (Text.encode before).length + c.name.length + 5 + k
    let inner : Context := ⟨ctx.function, c.line, place 0 + ctx.column⟩
    let script := String.ofList (quote :: text ++ [quote])
    let walk := visit (follow g.parse? budget) inner false
    runNested (follow g.parse? (budget + 1)) ctx c =
      commandString g.parse? walk c.line script ∧
    ∀ e ∈ ((runNested (follow g.parse? (budget + 1)) ctx c).exec s).2.toSurvey,
      (∃ d ∈ s.toSurvey, d.Kept e) ∨
      (∃ jumps, Found Scope.Means g.parse? s.functions inner root (jumps + 1) e) ∨
      (∃ u ∈ simpleUses c.line script, e = .use u) ∧
        (∃ fault, ((walk root).exec (s.opened c.line script)).1 = .error fault) ∨
      ∃ n p, root.Below n ∧ (p = n ∨ p ∈ n.children ∧ p.kind = .commandName) ∧
        Makes Scope.Means inner n e ∧ e.line = c.line ∧
        e.column = place p.column + ctx.column ∧ (e.column = place p.column ↔ ctx.column = 0) ∧
        ∀ written, p.text = some written → written ≠ "" →
          Text.StandsAt row (place p.column) written.toList := by
  intro row place inner script walk
  have hnested : runNested (follow g.parse? (budget + 1)) ctx c =
      commandString g.parse? walk c.line script := by
    have hinner : inner =
        ⟨ctx.function, c.line, ctx.column + c.column + c.name.length + 1 + 4⟩ := by
      simp only [inner, place, hcolumn, Context.mk.injEq, true_and]
      omega
    have hscript : scriptArgument? c.arguments = some script := by
      rw [harguments]
      rfl
    rw [runNested_eq hname hscript, ← hinner]
    rfl
  refine ⟨hnested, fun e he => ?_⟩
  rw [hnested] at he
  have hunquoted : g.parse? (String.ofList (unquote script.toList)) = some root := by
    rwa [String.toList_ofList, unquote_quoted hquote]
  rcases @mem_commandString g.parse? budget inner s script root e (by simp [script]) hunquoted he
    with hkept | ⟨_ | jumps, hfound⟩ | hsimple
  · exact .inl hkept
  · obtain ⟨n, p, hn, hp, hmakes, heline, hecolumn, hstands⟩ := hfound.placed hroot hline
    have hplace : e.column = place p.column + ctx.column := by
      simp only [hecolumn, inner, place]
      omega
    have hright : e.column = place p.column ↔ ctx.column = 0 := by omega
    exact .inr (.inr (.inr ⟨n, p, hn, hp, hmakes, heline, hplace, hright, fun written htext hne =>
      standsAt_script hname hquote (hstands written htext hne) before after⟩))
  · exact .inr (.inl ⟨jumps, hfound⟩)
  · exact .inr (.inr (.inl hsimple))

/-- The script `bash -c "bash -c 'echo $x'"`. -/
def doublyNested : Grammar where
  entries :=
    [("bash -c \"bash -c 'echo $x'\"", some ⟨.program, 0, 27,
        [⟨.command, 0, 27,
          [⟨.commandName, 0, 4, [⟨.word, 0, 4, []⟩]⟩, ⟨.word, 5, 7, []⟩,
            ⟨.string, 8, 27, [⟨.simpleExpansion, 23, 25, [⟨.variableName, 24, 25, []⟩]⟩]⟩]⟩]⟩),
      ("bash -c 'echo $x'", some ⟨.program, 0, 17,
        [⟨.command, 0, 17,
          [⟨.commandName, 0, 4, [⟨.word, 0, 4, []⟩]⟩, ⟨.word, 5, 7, []⟩,
            ⟨.rawString, 8, 17, []⟩]⟩]⟩),
      ("echo $x", some ⟨.program, 0, 7,
        [⟨.command, 0, 7,
          [⟨.commandName, 0, 4, [⟨.word, 0, 4, []⟩]⟩,
            ⟨.simpleExpansion, 5, 7, [⟨.variableName, 6, 7, []⟩]⟩]⟩]⟩)]

/-- In a string inside a string, the variable is recorded behind the end of the row. -/
theorem column_counted_twice :
    let row := "bash -c \"bash -c 'echo $x'\""
    ((script doublyNested row).exec {}).2.used = [⟨"$x", 0, 32⟩] ∧
      Text.StandsAt row.toList 23 "$x".toList ∧ row.length = 27 := by
  refine ⟨by decide +kernel, ?_, by decide +kernel⟩
  exact ⟨"bash -c \"bash -c 'echo ".toList, "$x'\"".toList, by decide +kernel, by decide +kernel,
    "'\"".toList, by decide +kernel⟩

/-- The inner command of the script stands in column 9, in a tree that is walked from column
9 on. Its text starts in column 18 and `$x` in column 23, which is recorded as 32. -/
theorem runNested_columns_doublyNested :
    let c : Command := ⟨"bash", ["-c", "'echo $x'"], 0, 9⟩
    let run := (runNested (follow doublyNested.parse? 1) ⟨"", 0, 9⟩ c).exec {}
    (.use ⟨"$x", 0, 32⟩ : Entry) ∈ run.2.toSurvey ∧
    ∃ root, doublyNested.parse? "echo $x" = some root ∧ ∀ e ∈ run.2.toSurvey,
      (∃ jumps, Found Scope.Means doublyNested.parse? [] ⟨"", 0, 27⟩ root (jumps + 1) e) ∨
      ∃ n p, root.Below n ∧ (p = n ∨ p ∈ n.children ∧ p.kind = .commandName) ∧
        e.line = 0 ∧ e.column = 18 + p.column + 9 := by
  intro c run
  obtain ⟨root, hroot⟩ : ∃ root, doublyNested.parse? "echo $x" = some root :=
    Option.isSome_iff_exists.1 (by decide +kernel)
  obtain ⟨-, hcolumns⟩ := runNested_columns doublyNested 0 ⟨"", 0, 9⟩ c {} "bash -c \"".toList
    ['"'] "echo $x".toList '\x27' [] root (by decide) (.inr rfl) (by decide +kernel)
    (by decide +kernel) (by decide +kernel) hroot
  have hbytes : (Text.encode "bash -c \"".toList).length + c.name.length + 5 = 18 := by
    decide +kernel
  simp only [hbytes] at hcolumns
  have hends : (doublyNested.parse? "echo $x").all (fun root =>
      ((visit (follow doublyNested.parse? 0) ⟨"", 0, 27⟩ false root).exec
        (State.opened {} 0 "'echo $x'")).1.isOk) = true := by
    decide +kernel
  rw [hroot, Option.all_some] at hends
  refine ⟨by decide +kernel, root, hroot, fun e he => ?_⟩
  rcases hcolumns e he with ⟨d, hd, -⟩ | hfound | ⟨-, fault, hfault⟩ |
    ⟨n, p, hn, hp, -, hline, hplace, -⟩
  · cases d <;> cases hd
  · exact .inl hfound
  · have hstops : ((visit (follow doublyNested.parse? 0) ⟨"", 0, 27⟩ false root).exec
        (State.opened {} 0 "'echo $x'")).1 = .error fault := hfault
    rw [hstops] at hends
    cases hends
  · exact .inr ⟨n, p, hn, hp, hline, hplace⟩

end Walk

end ShellAudit
