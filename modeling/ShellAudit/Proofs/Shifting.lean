-- SUMMARY: Where a text stands changes the positions of what a walk finds in it, and nothing else.
import ShellAudit.Proofs.Parallel

/-!
# Moving a text

A walk is told the line and the column that its text starts at. It adds them to every
position that it records, once each, and they decide nothing else. A text that a shell
is told to run is another matter: the column of the command is counted twice there, so
this is about walks that come to no such text.
-/

namespace ShellAudit.Walk

/-- Goes into the bodies of functions as `follow` does, and stops at texts. -/
def followBodies : Nat → Jump → Walk Unit
  | _, .script .. => throw .parseFailed
  | 0, .body .. => throw .exhausted
  | budget + 1, .body parts ctx =>
    visitAll (followBodies budget) ctx .functionDefinition true parts

/-- The walk of a node from a state comes to no text that a shell is told to run. -/
def ReachesNoText (budget : Nat) (ctx : Context) (runs : Bool) (n : Node) (s : State) : Prop :=
  ((visit (followBodies budget) ctx runs n).exec s).1 ≠ .error .parseFailed

instance (budget : Nat) (ctx : Context) (runs : Bool) (n : Node) (s : State) :
    Decidable (ReachesNoText budget ctx runs n s) :=
  inferInstanceAs (Decidable (_ ≠ _))

/-- The second state has the records of the first, and behind them those of a survey. -/
structure Adds (s : State) (found : Survey) (t : State) : Prop where
  assigned : t.assigned = s.assigned ++ found.assigned
  used : t.used = s.used ++ found.used
  commands : t.commands = s.commands ++ found.commands
  subscripts : t.subscripts = s.subscripts ++ found.subscripts
  injectable : t.injectable = s.injectable ++ found.injectable
  pairs : t.pairs = s.pairs ++ found.pairs

namespace Adds

variable {s t u : State} {found : Survey}

theorem refl (s : State) : Adds s {} s := by
  constructor <;> simp

theorem of_records (h : Adds s found t) (hu : u.records = t.records) : Adds s found u where
  assigned := (congrArg Survey.assigned hu).trans h.assigned
  used := (congrArg Survey.used hu).trans h.used
  commands := (congrArg Survey.commands hu).trans h.commands
  subscripts := (congrArg Survey.subscripts hu).trans h.subscripts
  injectable := (congrArg Survey.injectable hu).trans h.injectable
  pairs := (congrArg Survey.pairs hu).trans h.pairs

theorem add (h : Adds s found t) (e : Entry) : Adds s (found.add e) (t.add e) := by
  obtain ⟨hassigned, hused, hcommands, hsubscripts, hinjectable, hpairs⟩ := h
  cases e <;> constructor <;> simp [State.add, Survey.add, *]

/-- What is behind the records of a state is behind those of each state that has the
same behind them. -/
theorem congr {other : Survey} (ht : Adds s found t) (hu : Adds s found u) (h : Adds s other t) :
    Adds s other u where
  assigned := hu.assigned.trans (ht.assigned.symm.trans h.assigned)
  used := hu.used.trans (ht.used.symm.trans h.used)
  commands := hu.commands.trans (ht.commands.symm.trans h.commands)
  subscripts := hu.subscripts.trans (ht.subscripts.symm.trans h.subscripts)
  injectable := hu.injectable.trans (ht.injectable.symm.trans h.injectable)
  pairs := hu.pairs.trans (ht.pairs.symm.trans h.pairs)

end Adds

/-- Two states that a walk from one state may leave behind, the second where the text
stands elsewhere. -/
structure Shifted (start : State) (δ : Offset) (s t : State) : Prop where
  tainted : t.tainted = s.tainted
  scope : t.scope = s.scope
  functions : t.functions = s.functions
  found : ∃ found, Adds start found s ∧ Adds start (found.shift δ) t

theorem shifted_parallel (start : State) (δ : Offset) :
    Parallel δ (fun _ => True) (fun _ => True) (Shifted start δ) where
  child _ _ := trivial
  script _ _ := trivial
  tainted h := h.tainted
  functions h := h.functions
  body _ _ _ _ _ _ := trivial
  quiet := by
    rintro s t s' t' ⟨-, hscope, hfunctions, found, hs, ht⟩ hs' hscope' ht' hscope'' htainted
    refine ⟨htainted, ?_, ?_, found, hs.of_records hs', ht.of_records ht'⟩
    · rw [hscope', hscope'', hscope]
    · rw [State.functions_eq hs', State.functions_eq ht', hfunctions]
  add := by
    rintro s t e ⟨htainted, hscope, hfunctions, found, hs, ht⟩
    refine ⟨by simpa using htainted, hscope, by simpa using hfunctions, found.add e, hs.add e, ?_⟩
    rw [Survey.shift_add]
    exact ht.add (e.shift δ)
  lookup := by
    rintro n s t name - - ⟨htainted, hscope, hfunctions, found, hs, ht⟩
    refine ⟨by rw [hscope], htainted, ?_, hfunctions, found, { hs with }, { ht with }⟩
    simp only [hscope]
  declare := by
    rintro n s t name - - ⟨htainted, hscope, hfunctions, found, hs, ht⟩
    refine ⟨htainted, ?_, hfunctions, found, { hs with }, { ht with }⟩
    simp only [hscope]
  retract := by
    rintro n s t name - - ⟨htainted, hscope, hfunctions, found, hs, ht⟩
    refine ⟨by rw [hscope], htainted, ?_, hfunctions, found, { hs with }, { ht with }⟩
    simp only [hscope]
  define := by
    rintro n s t name - - ⟨htainted, hscope, hfunctions, found, hs, ht⟩
    refine ⟨htainted, hscope, ?_, found, { hs with }, { ht with }⟩
    simp only [hfunctions]
  enter := by
    rintro s t name ⟨htainted, hscope, hfunctions, found, hs, ht⟩
    refine ⟨htainted, hscope, ?_, found, { hs with }, { ht with }⟩
    simp only [hfunctions]

/-- As long as the first walk comes to no text, the second does what it does, elsewhere. -/
theorem Parallel.inStep_followBodies {δ : Offset} {N : Node → Prop} {S : String → Prop}
    {R : State → State → Prop} (parallel : Parallel δ N S R) (parse? : String → Option Node)
    (budget : Nat) (jump : Jump) (hjump : Admitted (fun _ => N) (fun _ => S) jump) :
    InStep (· = .parseFailed) R (followBodies budget jump) (follow parse? budget (jump.shift δ))
      unrelated := by
  induction budget generalizing jump with
  | zero =>
    cases jump with
    | body parts ctx => exact .throw .exhausted
    | script script ctx => exact fun s t _ => .given rfl
  | succ budget ih =>
    cases jump with
    | body parts ctx =>
      exact inStep_visitAll_of_visit fun n hn runs => parallel.inStep_visit ih (hjump n hn) runs
    | script script ctx => exact fun s t _ => .given rfl

/-- The walk without texts, and the walk itself where the text stands elsewhere. -/
theorem visit_followBodies (parse? : String → Option Node) (budget : Nat) (ctx : Context)
    (runs : Bool) (n : Node) (s : State) (δ : Offset)
    (h : ReachesNoText budget ctx runs n s) :
    let home := (visit (followBodies budget) ctx runs n).exec s
    let away := (visit (follow parse? budget) (ctx.shift δ) runs n).exec s
    away.1 = home.1 ∧ Shifted s δ home.2 away.2 := by
  have parallel := shifted_parallel s δ
  have start : Shifted s δ s s := ⟨rfl, rfl, rfl, {}, .refl s, .refl s⟩
  have ends : Alike (· = .parseFailed) (Shifted s δ) unrelated
      ((visit (followBodies budget) ctx runs n).exec s)
      ((visit (follow parse? budget) (ctx.shift δ) runs n).exec s) :=
    parallel.inStep_visit (parallel.inStep_followBodies parse? budget) trivial runs s s start
  exact ends.same fun fault hfault => hfault ▸ h

/-- A walk that comes to no text ends in the same way wherever its text stands, with the
same tainted names, names in scope and functions; and it finds the same, moved by the
line and the column of the text. -/
theorem visit_shift (parse? : String → Option Node) (budget : Nat) (function : String)
    (line column : Int) (runs : Bool) (n : Node) (s : State)
    (h : ReachesNoText budget { function := function } runs n s) :
    let home := (visit (follow parse? budget) { function := function } runs n).exec s
    let away := (visit (follow parse? budget) ⟨function, line, column⟩ runs n).exec s
    away.1 = home.1 ∧ away.2.tainted = home.2.tainted ∧ away.2.scope = home.2.scope ∧
      away.2.functions = home.2.functions ∧
      ∃ found : Survey, Adds s found home.2 ∧ Adds s (found.shift ⟨line, column⟩) away.2 := by
  intro home away
  -- Both walks are compared with the one that stops at texts, which neither comes to.
  obtain ⟨resultHome, atHome⟩ := visit_followBodies parse? budget _ runs n s ⟨0, 0⟩ h
  obtain ⟨resultAway, atAway⟩ := visit_followBodies parse? budget _ runs n s ⟨line, column⟩ h
  have hcontext : Context.shift ⟨line, column⟩ { function := function } =
      ⟨function, line, column⟩ := by
    simp [Context.shift]
  rw [Context.shift_zero] at resultHome atHome
  rw [hcontext] at resultAway atAway
  obtain ⟨kept, keptHome, keptAway⟩ := atHome.found
  obtain ⟨found, foundHome, foundAway⟩ := atAway.found
  rw [Survey.shift_zero] at keptAway
  exact ⟨resultAway.trans resultHome.symm, atAway.tainted.trans atHome.tainted.symm,
    atAway.scope.trans atHome.scope.symm, atAway.functions.trans atHome.functions.symm,
    found, keptHome.congr keptAway foundHome, foundAway⟩

/-- The script `f() { x=$(cat $1); }; f`. -/
def calling : Node :=
  { kind := .program, text := some "f() \x7b x=$(cat $1); \x7d; f", row := 0, column := 0
    endColumn := 23
    children :=
      [⟨.functionDefinition, some "f() \x7b x=$(cat $1); \x7d", 0, 0, 20,
          [⟨.word, some "f", 0, 0, 1, []⟩,
            ⟨.compoundStatement, some "\x7b x=$(cat $1); \x7d", 0, 4, 20,
              [⟨.variableAssignment, some "x=$(cat $1)", 0, 6, 17,
                [⟨.variableName, some "x", 0, 6, 7, []⟩,
                  ⟨.commandSubstitution, some "$(cat $1)", 0, 8, 17,
                    [⟨.command, some "cat $1", 0, 10, 16,
                      [⟨.commandName, some "cat", 0, 10, 13, [⟨.word, some "cat", 0, 10, 13, []⟩]⟩,
                        ⟨.simpleExpansion, some "$1", 0, 14, 16,
                          [⟨.variableName, some "1", 0, 15, 16, []⟩]⟩]⟩]⟩]⟩]⟩]⟩,
        ⟨.command, some "f", 0, 22, 23,
          [⟨.commandName, some "f", 0, 22, 23, [⟨.word, some "f", 0, 22, 23, []⟩]⟩]⟩] }

/-- In line 3 from column 5 on, the command in the value of `x` is recorded in column 15. -/
theorem visit_shift_calling :
    let home := (visit (follow (fun _ => none) 1) {} false calling).exec {}
    let away := (visit (follow (fun _ => none) 1) ⟨"", 3, 5⟩ false calling).exec {}
    let x (line column : Int) : Assignment :=
      ⟨"x", some ⟨"$(cat $1)", [.output ⟨"cat", ["$1"], line, column + 4⟩,
        .plain "1" (some ⟨14, 16⟩)]⟩, line, column, false⟩
    ReachesNoText 1 {} false calling {} ∧ away.1 = home.1 ∧
      (∃ found : Survey, Adds {} found home.2 ∧ Adds {} (found.shift ⟨3, 5⟩) away.2) ∧
      home.2.assigned = [x 0 6] ∧ away.2.assigned = [x 3 11] := by
  intro home away x
  have reaches : ReachesNoText 1 {} false calling {} := by decide +kernel
  obtain ⟨result, -, -, -, found⟩ := visit_shift (fun _ => none) 1 "" 3 5 false calling {} reaches
  exact ⟨reaches, result, found, by decide +kernel, by decide +kernel⟩

end ShellAudit.Walk
