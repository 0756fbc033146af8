-- SUMMARY: Without local declarations a record has the written name or a dotted one that captures it.
import ShellAudit.Proofs.Parallel
import ShellAudit.Proofs.Provenance

/-!
# Captured names

All names that a walk looks up go into one scope: variables, commands, and what `read`
reads. A dotted name among them, such as the path of a program with an extension, is
taken for a qualified one, and captures the names that end like it. Without local
declarations this is the only way in which a record can get another name than the one
that is written. If it cannot happen, the order in which the scope lists its names does
not matter either.
-/

namespace ShellAudit.Walk

/-- A dotted name that is looked up and ends in the written name. -/
def Captures (looked : String → Prop) (written name : String) : Prop :=
  looked name ∧ 0 < Scope.depth name ∧ Scope.baseName name = written

/-- The name is as it is written, or captures it. -/
def WrittenOrCaptured (looked : String → Prop) (written name : String) : Prop :=
  name = written ∨ Captures looked written name

/-- No name that is looked up is captured. -/
def Uncaptured (looked : String → Prop) : Prop :=
  ∀ written name, looked written → ¬Captures looked written name

theorem naming_of_lookedUp (looked : String → Prop) :
    Naming (WrittenOrCaptured looked) (fun scope => ∀ x ∈ scope, looked x) looked where
  itself _ := .inl rfl
  meaning := by
    intro scope written name hscope hqualified
    obtain ⟨hmem, hmeans⟩ := Scope.mem_of_qualified? hqualified
    exact .inr ⟨hscope name hmem, hmeans⟩
  lookup := by
    intro scope name hname hscope x hx
    rcases NameSet.mem_insert.1 hx with hx | rfl
    · exact hscope x hx
    · exact hname

/-- Where nothing is captured, a name that is looked up stands for itself. -/
theorem Uncaptured.qualified?_eq_none {looked : String → Prop} (h : Uncaptured looked)
    {scope : NameSet} (hscope : ∀ x ∈ scope, looked x) {written : String}
    (hlooked : looked written) : Scope.qualified? scope written = none :=
  Scope.qualified?_eq_none fun x hx hdepth hbase =>
    h written x hlooked ⟨hscope x hx, hdepth, hbase⟩

theorem Makes.imp {M M' : String → String → Prop} {ctx : Context} {n : Node} {e : Entry}
    (h : Makes M ctx n e)
    (hM : ∀ written name, written ∈ n.lookups → M written name → M' written name) :
    Makes M' ctx n e := by
  cases h with
  | use hkind htext => exact .use hkind htext
  | subscript hkind => exact .subscript hkind
  | runExpansion hkind => exact .runExpansion hkind
  | command hkind hnamed hmeans =>
    exact .command hkind hnamed (hM _ _ (by simp [Node.lookups, hkind]) hmeans)
  | assignment hkind htext hmeans hparts =>
    exact .assignment hkind htext (hM _ _ (by simp [Node.lookups, hkind, htext]) hmeans) hparts
  | input hkind hread hargument hmeans =>
    refine .input hkind hread hargument (hM _ _ ?_ hmeans)
    simp [Node.lookups, hkind, hread, hargument]
  | injectable hkind htext hmeans =>
    exact .injectable hkind htext (hM _ _ (by simp [Node.lookups, hkind, htext]) hmeans)
  | pair hkind => exact .pair hkind

section

variable {parse? : String → Option Node} {known : FunctionTable} {start : Context} {root : Node}

/-- Where nothing is captured, records are found under the names that are written. -/
theorem Found.written {jumps : Nat} {e : Entry}
    (hnone : Uncaptured (LookedUp parse? known start root))
    (h : Found (WrittenOrCaptured (LookedUp parse? known start root)) parse? known start root jumps
      e) :
    Found (fun written name => name = written) parse? known start root jumps e := by
  cases h with
  | scanned hcomes hruns hu => exact .scanned hcomes hruns hu
  | made hcomes hmakes =>
    refine .made hcomes (hmakes.imp fun written name hwritten hmeans => ?_)
    rcases hmeans with hsame | hcaptures
    · exact hsame
    · exact absurd hcaptures (hnone written name ⟨_, _, ⟨jumps, hcomes⟩, hwritten⟩)

/-! ## The order of the scope -/

/-- Two states that differ in the order of their scopes only, as long as a walk of `root`
goes on. -/
structure Reordered (parse? : String → Option Node) (known : FunctionTable) (start : Context)
    (root : Node) (s t : State) : Prop where
  survey : t.toSurvey = s.toSurvey
  members : ∀ x, x ∈ t.scope ↔ x ∈ s.scope
  looked : ∀ x ∈ s.scope, LookedUp parse? known start root x
  functions : Familiar parse? known start root s.functions

theorem reordered_parallel
    (hlocal : ∀ ctx n, Reached parse? known start root ctx n → ¬n.IsLocal)
    (hnone : Uncaptured (LookedUp parse? known start root)) :
    Parallel ⟨0, 0⟩ (fun n => ∃ ctx, Reached parse? known start root ctx n)
      (fun script => ∃ ctx, RunsAt parse? known start root ctx script)
      (Reordered parse? known start root) where
  child := by
    rintro n c ⟨ctx, jumps, hn⟩ hc
    exact ⟨ctx, jumps, .child hn hc⟩
  script := by
    rintro n script ⟨ctx, jumps, hn⟩ hruns
    exact ⟨scriptContext ctx n, jumps, ctx, n, hn, hruns, rfl⟩
  tainted h := by rw [h.survey]
  functions h := by rw [h.survey]
  body := by
    rintro n s t name f ⟨ctx, hn⟩ hcalls hs hf m hm
    exact ⟨_, hs.functions.body hn hcalls hf m hm⟩
  quiet := by
    rintro s t s' t' hs hs' hscope ht' hscope' htainted
    have survey : t'.toSurvey = s'.toSurvey :=
      calc t'.toSurvey = { t'.records with tainted := t'.tainted } := rfl
        _ = { s'.records with tainted := s'.tainted } := by
          rw [ht', hs', htainted, State.records, State.records, hs.survey]
        _ = s'.toSurvey := rfl
    exact ⟨survey, by rw [hscope, hscope']; exact hs.members, hscope ▸ hs.looked,
      State.functions_eq hs' ▸ hs.functions⟩
  add := by
    rintro s t e hs
    refine ⟨?_, hs.members, hs.looked, s.functions_add e ▸ hs.functions⟩
    simp only [State.add, Entry.shift_zero, hs.survey]
  lookup := by
    rintro n s t name ⟨ctx, hn⟩ hname hs
    have hlooked : LookedUp parse? known start root name := ⟨ctx, n, hn, hname⟩
    have hmembers (x : String) : x ∈ t.scope.insert name ↔ x ∈ s.scope.insert name := by
      rw [NameSet.mem_insert, NameSet.mem_insert, hs.members]
    refine ⟨?_, hs.survey, hmembers, fun x hx => ?_, hs.functions⟩
    · rw [hnone.qualified?_eq_none hs.looked hlooked,
        hnone.qualified?_eq_none (fun x hx => hs.looked x ((hs.members x).1 hx)) hlooked]
    · rcases NameSet.mem_insert.1 hx with hx | rfl
      · exact hs.looked x hx
      · exact hlooked
  declare _ := by
    rintro ⟨ctx, hn⟩ hlocal' -
    exact absurd hlocal' (hlocal ctx _ hn)
  retract _ := by
    rintro ⟨ctx, hn⟩ hlocal' -
    exact absurd hlocal' (hlocal ctx _ hn)
  define := by
    rintro n s t name ⟨ctx, hn⟩ hname hs
    refine ⟨?_, hs.members, hs.looked, hs.functions.define hn hname⟩
    simp only [hs.survey]
  enter := by
    rintro s t name hs
    refine ⟨?_, hs.members, hs.looked, hs.functions.enter name⟩
    simp only [hs.survey]

/-- Where nothing is captured, the order of the scope does not matter to a walk. -/
theorem visit_reordered {s : State}
    (hlocal : ∀ ctx n, Reached parse? s.functions start root ctx n → ¬n.IsLocal)
    (hnone : Uncaptured (LookedUp parse? s.functions start root))
    (hscope : ∀ x ∈ s.scope, LookedUp parse? s.functions start root x) {scope : NameSet}
    (hmembers : ∀ x, x ∈ scope ↔ x ∈ s.scope) (budget : Nat) (runs : Bool) :
    let walked := (visit (follow parse? budget) start runs root).exec s
    let walked' := (visit (follow parse? budget) start runs root).exec { s with scope := scope }
    walked'.1 = walked.1 ∧ Reordered parse? s.functions start root walked.2 walked'.2 := by
  intro walked walked'
  let N (n : Node) : Prop := ∃ ctx, Reached parse? s.functions start root ctx n
  let S (script : String) : Prop := ∃ ctx, RunsAt parse? s.functions start root ctx script
  have parallel : Parallel ⟨0, 0⟩ N S (Reordered parse? s.functions start root) :=
    reordered_parallel hlocal hnone
  have begun : Reordered parse? s.functions start root s { s with scope := scope } :=
    ⟨rfl, hmembers, hscope, .refl s.functions⟩
  have jumps (jump : Jump) (hjump : Admitted (fun _ => N) (fun _ => S) jump) :
      InStep (fun _ => False) (Reordered parse? s.functions start root)
        (follow parse? budget jump) (follow parse? budget (jump.shift ⟨0, 0⟩)) unrelated := by
    refine parallel.inStep_follow ?_ ?_ budget jump hjump
    · rintro script m ⟨_, jumps, ctx, n, hn, hruns, rfl⟩ hparsed
      exact ⟨_, jumps + 1, .text hn hruns hparsed⟩
    · rintro line t u ⟨hsurvey, hmembers, hlooked, hfunctions⟩
      exact ⟨by simp only [hsurvey], hmembers, hlooked, hfunctions⟩
  have ends : Alike (fun _ => False) (Reordered parse? s.functions start root) unrelated
      walked walked' := by
    simpa using parallel.inStep_visit jumps ⟨start, 0, .root⟩ runs s _ begun
  exact ends.same fun _ h => h.elim

end

/-- In a walk that declares no local variables, from a scope of names that it looks up,
every record has the name that is written or one that captures it. If nothing is captured,
names stand for themselves throughout, every record has the name that is written, and the
walk ends in the same way whatever the order of the scope is. -/
theorem visit_names (parse? : String → Option Node) (budget : Nat) (start : Context) (runs : Bool)
    (root : Node) (s : State)
    (hlocal : ∀ ctx n, Reached parse? s.functions start root ctx n → ¬n.IsLocal)
    (hscope : ∀ x ∈ s.scope, LookedUp parse? s.functions start root x) :
    let looked := LookedUp parse? s.functions start root
    let run (scope : NameSet) :=
      (visit (follow parse? budget) start runs root).exec { s with scope := scope }
    let found (M : String → String → Prop) (e : Entry) :=
      ∃ jumps, Found M parse? s.functions start root jumps e
    (∀ e ∈ (run s.scope).2.toSurvey,
      (∃ d ∈ s.toSurvey, d.Kept e) ∨ found (WrittenOrCaptured looked) e) ∧
    (Uncaptured looked →
      (∀ e ∈ (run s.scope).2.toSurvey,
        (∃ d ∈ s.toSurvey, d.Kept e) ∨ found (fun written name => name = written) e) ∧
      (∀ t : State, (∀ x ∈ t.scope, looked x) → ∀ name, looked name →
        (resolve name).exec t = (.ok name, { t with scope := t.scope.insert name })) ∧
      ∀ scope : NameSet, (∀ x, x ∈ scope ↔ x ∈ s.scope) →
        (run scope).1 = (run s.scope).1 ∧ (run scope).2.toSurvey = (run s.scope).2.toSurvey ∧
          ∀ x, x ∈ (run scope).2.scope ↔ x ∈ (run s.scope).2.scope) := by
  intro looked run found
  have traced := visit_traced (naming_of_lookedUp looked) (.inr hlocal) hscope budget runs
  refine ⟨traced.entries, fun hnone => ⟨fun e he => ?_, fun t ht name hname => ?_, ?_⟩⟩
  · refine (traced.entries e he).imp_right ?_
    rintro ⟨jumps, hfound⟩
    exact ⟨jumps, hfound.written hnone⟩
  · simp only [resolve, exec_bind, exec_get, hnone.qualified?_eq_none ht hname]
    rfl
  · intro scope hmembers
    obtain ⟨hresult, hstates⟩ := visit_reordered hlocal hnone hscope hmembers budget runs
    exact ⟨hresult, hstates.survey, hstates.members⟩

/-- The script `read x` with `x=$1` in its second line. -/
def readingThenAssigning : Node :=
  { kind := .program, text := some "read x\nx=$1", row := 0, column := 0, endColumn := 4
    children :=
      [⟨.command, some "read x", 0, 0, 6,
          [⟨.commandName, some "read", 0, 0, 4, [⟨.word, some "read", 0, 0, 4, []⟩]⟩,
            ⟨.word, some "x", 0, 5, 6, []⟩]⟩,
        ⟨.variableAssignment, some "x=$1", 1, 0, 4,
          [⟨.variableName, some "x", 1, 0, 1, []⟩,
            ⟨.simpleExpansion, some "$1", 1, 2, 4, [⟨.variableName, some "1", 1, 3, 4, []⟩]⟩]⟩] }

theorem visit_names_readingThenAssigning :
    let run (scope : NameSet) :=
      (visit (follow (fun _ => none) 0) {} false readingThenAssigning).exec { scope := scope }
    let looked := LookedUp (fun _ => none) [] {} readingThenAssigning
    Uncaptured looked ∧
      (∀ e ∈ (run (.ofList ["read", "x"])).2.toSurvey, ∃ jumps,
        Found (fun written name => name = written) (fun _ => none) [] {} readingThenAssigning jumps
          e) ∧
      (run (.ofList ["x", "read"])).2.toSurvey = (run (.ofList ["read", "x"])).2.toSurvey ∧
      (run (.ofList ["read", "x"])).2.assigned.map (·.name) = ["x", "x"] := by
  intro run looked
  let s : State := { scope := .ofList ["read", "x"] }
  have hall : Throughout (fun n => ¬n.IsLocal ∧ ∀ x ∈ n.lookups, Scope.depth x = 0)
      (fun _ => none) s [readingThenAssigning] :=
    { nodes := by decide +kernel
      bodies := fun f hf => absurd hf List.not_mem_nil
      texts := fun text root h => by cases h }
  have reached {ctx : Context} {n : Node}
      (hn : Reached (fun _ => none) s.functions {} readingThenAssigning ctx n) :=
    (Node.every_iff.1 (hn.every hall)).1
  have hnone : Uncaptured looked := by
    rintro written name - ⟨⟨ctx, n, hn, hname⟩, hdepth, -⟩
    exact absurd ((reached hn).2 name hname) (Nat.ne_of_gt hdepth)
  have hscope : ∀ x ∈ s.scope, looked x := by
    have hcommand : Reached (fun _ => none) [] {} readingThenAssigning {}
        (readingThenAssigning.children.head (by decide)) :=
      ⟨0, .child .root (List.head_mem _)⟩
    have hlookups : ∀ x ∈ s.scope.names,
        x ∈ (readingThenAssigning.children.head (by decide)).lookups := by decide +kernel
    exact fun x hx => ⟨_, _, hcommand, hlookups x hx⟩
  obtain ⟨hwritten, -, horder⟩ := (visit_names (fun _ => none) 0 {} false readingThenAssigning s
    (fun ctx n hn => (reached hn).1) hscope).2 hnone
  refine ⟨hnone, fun e he => ?_, (horder (.ofList ["x", "read"]) fun x => ?_).2.1, ?_⟩
  · rcases hwritten e he with ⟨d, hd, -⟩ | hfound
    · cases d <;> cases hd
    · exact hfound
  · have hnames : s.scope.names = ["read", "x"] := by decide +kernel
    have hreversed : (NameSet.ofList ["x", "read"]).names = ["x", "read"] := by decide +kernel
    simp [NameSet.mem_def, hnames, hreversed, or_comm]
  · decide +kernel

/-- The scripts `./get.x`, `x=$1` and `./install.sh`, `sh -c "echo $1"` of two lines each. -/
def capturing : Grammar where
  entries :=
    [("./get.x\nx=$1", some ⟨.program, 0, 12,
        [⟨.command, 0, 7, [⟨.commandName, 0, 7, [⟨.word, 0, 7, []⟩]⟩]⟩,
          ⟨.variableAssignment, 8, 12,
            [⟨.variableName, 8, 9, []⟩,
              ⟨.simpleExpansion, 10, 12, [⟨.variableName, 11, 12, []⟩]⟩]⟩]⟩),
      ("./install.sh\nsh -c \"echo $1\"", some ⟨.program, 0, 28,
        [⟨.command, 0, 12, [⟨.commandName, 0, 12, [⟨.word, 0, 12, []⟩]⟩]⟩,
          ⟨.command, 13, 28,
            [⟨.commandName, 13, 15, [⟨.word, 13, 15, []⟩]⟩, ⟨.word, 16, 18, []⟩,
              ⟨.string, 19, 28, [⟨.simpleExpansion, 25, 27, [⟨.variableName, 26, 27, []⟩]⟩]⟩]⟩]⟩)]

/-- A program that is run captures a variable, and the name of a shell, whose text is not
walked then. Of two names that capture a third one, the order of the scope decides. -/
theorem names_captured_by_commands :
    ((script capturing "./get.x\nx=$1").exec {}).2.tainted.names = ["./get.x"] ∧
      ((script capturing "./install.sh\nsh -c \"echo $1\"").exec {}).2.commands.map (·.name) =
        ["./install.sh", "./install.sh"] ∧
      Scope.qualified? (.ofList ["./get.x", "./set.x"]) "x" = some "./get.x" ∧
      Scope.qualified? (.ofList ["./set.x", "./get.x"]) "x" = some "./set.x" := by
  decide +kernel

end ShellAudit.Walk
