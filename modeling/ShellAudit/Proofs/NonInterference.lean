-- SUMMARY: What is tainted decides nothing in a walk but what is tainted, and that monotonically.
import ShellAudit.Proofs.Composed

/-!
# Taint does not interfere

Two walks of the same tree that start from states with different tainted names
end alike and leave the same records, functions and scope behind. If the first
starts with fewer tainted names than the second, it also ends with fewer.
-/

namespace ShellAudit.Walk

/-- The second state differs from the first in its debug notes, and in that more
names may be tainted in it. -/
inductive Below : State → State → Prop
  | intro (s : State) {tainted : NameSet} (notes : List String) (h : s.tainted ⊆ tainted) :
      Below s { s with tainted := tainted, notes := notes }

namespace Below

theorem tainted {s t : State} (h : Below s t) : s.tainted ⊆ t.tainted := by
  cases h with
  | intro notes h => exact h

/-- The states agree on everything but taint and notes. -/
theorem agree {s t : State} (h : Below s t) :
    { s with tainted := ∅, notes := [] } = { t with tainted := ∅, notes := [] } := by
  cases h with
  | intro notes h => rfl

end Below

/-- Two walks that end alike when the second starts from a state above that of
the first, and leave states behind that are above one another in the same way. -/
def Uniform {α : Type} (walk walk' : Walk α) : Prop :=
  ∀ s t, Below s t →
    (walk.exec s).1 = (walk'.exec t).1 ∧ Below (walk.exec s).2 (walk'.exec t).2

namespace Uniform

theorem pure {α : Type} (a : α) : Uniform (pure a) (pure a) := fun _ _ h => ⟨rfl, h⟩

theorem throw {α : Type} (fault : Fault) : Uniform (throw fault : Walk α) (throw fault) :=
  fun _ _ h => ⟨rfl, h⟩

theorem change {f : State → State} (hf : ∀ s t, Below s t → Below (f s) (f t)) :
    Uniform (modify f) (modify f) :=
  fun s t h => ⟨rfl, hf s t h⟩

theorem bind {α β : Type} {walk walk' : Walk α} {next next' : α → Walk β} (h : Uniform walk walk')
    (hnext : ∀ a, Uniform (next a) (next' a)) : Uniform (walk >>= next) (walk' >>= next') := by
  intro s t hst
  obtain ⟨hresult, hstate⟩ := h s t hst
  rw [exec_bind, exec_bind]
  rcases hs : walk.exec s with ⟨_ | a, s'⟩ <;> rcases ht : walk'.exec t with ⟨_ | b, t'⟩ <;>
    simp only [hs, ht] at hresult hstate ⊢
  · exact ⟨by cases hresult; rfl, hstate⟩
  · cases hresult
  · cases hresult
  · cases hresult
    exact hnext a s' t' hstate

/-- The taint that a joined step forgets or adds is ordered as the taint before it. -/
theorem joinTaint {step step' : Walk Unit} (h : Uniform step step') :
    Uniform (joinTaint step) (joinTaint step') := by
  intro s t hst
  obtain ⟨hresult, hstate⟩ := h s t hst
  rw [exec_joinTaint, exec_joinTaint]
  rcases hs : step.exec s with ⟨_ | _, s'⟩ <;> rcases ht : step'.exec t with ⟨_ | _, t'⟩ <;>
    simp only [hs, ht] at hresult hstate ⊢
  · cases hresult
    cases hstate with
    | intro notes h => exact ⟨rfl, .intro _ notes hst.tainted⟩
  · cases hresult
  · cases hresult
  · cases hstate with
    | intro notes h => exact ⟨trivial, .intro _ notes (NameSet.union_mono hst.tainted h)⟩

theorem recovering {step step' recover recover' : Walk Unit} (h : Uniform step step')
    (hrecover : Uniform recover recover') :
    Uniform (recovering step recover) (recovering step' recover') := by
  intro s t hst
  obtain ⟨hresult, hstate⟩ := h s t hst
  unfold Walk.recovering
  rw [exec_tryCatch, exec_tryCatch]
  rcases hs : step.exec s with ⟨fault | _, s'⟩ <;> rcases ht : step'.exec t with ⟨_ | _, t'⟩ <;>
    simp only [hs, ht] at hresult hstate ⊢
  · cases hresult
    split
    · exact ⟨rfl, hstate⟩
    · exact hrecover s' t' hstate
  · cases hresult
  · cases hresult
  · exact ⟨trivial, hstate⟩

theorem resolve (name : String) : Uniform (resolve name) (resolve name) := by
  intro s t hst
  cases hst with
  | intro notes h =>
    unfold Walk.resolve
    simp only [exec_bind, exec_get]
    split
    · exact ⟨rfl, .intro s notes h⟩
    · exact ⟨rfl, .intro { s with scope := s.scope.insert name } notes h⟩

theorem retract (name : String) : Uniform (retract name) (retract name) := by
  intro s t hst
  cases hst with
  | intro notes h =>
    unfold Walk.retract
    simp only [exec_bind, exec_get]
    split
    · exact ⟨rfl, .intro { s with scope := s.scope.erase name } notes h⟩
    · exact ⟨rfl, .intro s notes h⟩

theorem assignTaint (name : String) (value : Value) :
    Uniform (assignTaint name value) (assignTaint name value) := by
  refine .change fun s t hst => ?_
  cases hst with
  | intro notes h => exact .intro _ _ (NameSet.assign_mono h name value)

theorem taint (name : String) : Uniform (taint name) (taint name) := by
  refine .change fun s t hst => ?_
  cases hst with
  | intro notes h => exact .intro _ notes (NameSet.insert_mono h name)

/-- A change of the state that neither looks at taint or notes nor touches them. -/
theorem change_of_commutes {f : State → State}
    (hf : ∀ s tainted notes,
      f { s with tainted := tainted, notes := notes } =
        { f s with tainted := tainted, notes := notes })
    (hkeep : ∀ s, (f s).tainted = s.tainted) : Uniform (modify f) (modify f) := by
  refine .change fun s t hst => ?_
  cases hst with
  | @intro tainted notes h =>
    rw [hf s tainted notes]
    exact .intro (f s) notes (by rw [hkeep]; exact h)

end Uniform

theorem Plain.uniform {α : Type} {walk : Walk α} (h : Plain walk) : Uniform walk walk := by
  induction h with
  | pure a => exact .pure a
  | throw fault _ => exact .throw fault
  | bind _ _ ih ihnext => exact .bind ih ihnext
  | resolve name => exact .resolve name
  | declare name => exact .change_of_commutes (fun _ _ _ => rfl) fun _ => rfl
  | retract name => exact .retract name
  | assignTaint name value => exact .assignTaint name value
  | taint name => exact .taint name
  | recordAssignment a => exact .change_of_commutes (fun _ _ _ => rfl) fun _ => rfl
  | recordUse u => exact .change_of_commutes (fun _ _ _ => rfl) fun _ => rfl
  | recordCommand c => exact .change_of_commutes (fun _ _ _ => rfl) fun _ => rfl
  | recordSubscript x => exact .change_of_commutes (fun _ _ _ => rfl) fun _ => rfl
  | recordInjectable i => exact .change_of_commutes (fun _ _ _ => rfl) fun _ => rfl
  | recordPair p => exact .change_of_commutes (fun _ _ _ => rfl) fun _ => rfl
  | recordSimple line text => exact .change_of_commutes (fun _ _ _ => rfl) fun _ => rfl
  | unmark line => exact .change_of_commutes (fun _ _ _ => rfl) fun _ => rfl

/-- What is composed of the same single steps runs alike, whatever is tainted. -/
theorem Composed.uniform {R : Walk Unit → Walk Unit → Prop}
    (hR : ∀ {walk walk'}, R walk walk' → Uniform walk walk') {α : Type} {walk walk' : Walk α}
    (h : Composed R walk walk') : Uniform walk walk' := by
  induction h with
  | plain h => exact h.uniform
  | related h => exact hR h
  | bind _ _ ih ihnext => exact .bind ih ihnext
  | joinTaint _ ih => exact .joinTaint ih
  | countVisit => exact .change_of_commutes (fun _ _ _ => rfl) fun _ => rfl
  | define name body => exact .change_of_commutes (fun _ _ _ => rfl) fun _ => rfl
  | enter name => exact .change_of_commutes (fun _ _ _ => rfl) fun _ => rfl
  | lookup name =>
    intro s t hst
    cases hst with
    | intro notes h => exact ⟨rfl, .intro s notes h⟩
  | recovering _ _ ih ihrecover => exact .recovering ih ihrecover

theorem follow_uniform (parse? : String → Option Node) (budget : Nat) (jump : Jump) :
    Composed Uniform (follow parse? budget jump) (follow parse? budget jump) := by
  have := Composed.follow (R := Uniform) (d := 0) parse? (fun _ => .throw .exhausted) budget jump
  rwa [Nat.zero_add] at this

/-! ## Two runs of one walk -/

/-- Starting states that differ in taint only lie below a common one, in which
all names are tainted that are tainted in one of them. -/
theorem Uniform.agree {α : Type} {walk : Walk α} (h : Uniform walk walk) (s : State)
    (tainted₁ tainted₂ : NameSet) :
    (walk.exec { s with tainted := tainted₁ }).1 = (walk.exec { s with tainted := tainted₂ }).1 ∧
      { (walk.exec { s with tainted := tainted₁ }).2 with tainted := ∅, notes := [] } =
        { (walk.exec { s with tainted := tainted₂ }).2 with tainted := ∅, notes := [] } := by
  let above : State := { s with tainted := tainted₁.union tainted₂ }
  have below₁ : Below { s with tainted := tainted₁ } above :=
    .intro _ s.notes (NameSet.subset_union_left tainted₁ tainted₂)
  have below₂ : Below { s with tainted := tainted₂ } above :=
    .intro _ s.notes (NameSet.subset_union_right tainted₁ tainted₂)
  obtain ⟨result₁, state₁⟩ := h _ _ below₁
  obtain ⟨result₂, state₂⟩ := h _ _ below₂
  exact ⟨result₁.trans result₂.symm, state₁.agree.trans state₂.agree.symm⟩

/-- Whatever is tainted at the start, a walk ends in the same way and leaves the
same records, functions and scope behind; and what is tainted at its end grows
with what is tainted at its start. -/
theorem visit_taint_noninterference (parse? : String → Option Node) (budget : Nat) (ctx : Context)
    (runs : Bool) (node : Node) (s : State) (tainted₁ tainted₂ : NameSet) :
    let run := fun tainted =>
      (visit (follow parse? budget) ctx runs node).exec { s with tainted := tainted }
    (run tainted₁).1 = (run tainted₂).1 ∧
      (run tainted₁).2.assigned = (run tainted₂).2.assigned ∧
      (run tainted₁).2.used = (run tainted₂).2.used ∧
      (run tainted₁).2.commands = (run tainted₂).2.commands ∧
      (run tainted₁).2.subscripts = (run tainted₂).2.subscripts ∧
      (run tainted₁).2.injectable = (run tainted₂).2.injectable ∧
      (run tainted₁).2.pairs = (run tainted₂).2.pairs ∧
      (run tainted₁).2.functions = (run tainted₂).2.functions ∧
      (run tainted₁).2.scope = (run tainted₂).2.scope ∧
      (tainted₁ ⊆ tainted₂ → (run tainted₁).2.tainted ⊆ (run tainted₂).2.tainted) := by
  intro run
  have uniform : Uniform (visit (follow parse? budget) ctx runs node) _ :=
    (Composed.visit (follow_uniform parse? budget) ctx runs node).uniform id
  obtain ⟨result, state⟩ := uniform.agree s tainted₁ tainted₂
  have field {β : Type} (f : State → β) := congrArg f state
  refine ⟨result, field (·.assigned), field (·.used), field (·.commands), field (·.subscripts),
    field (·.injectable), field (·.pairs), field (·.functions), field (·.scope), fun h => ?_⟩
  exact (uniform _ _ (.intro { s with tainted := tainted₁ } s.notes h)).2.tainted

/-- The assignment `y=$x`. -/
def copying : Node :=
  { kind := .variableAssignment, text := some "y=$x", row := 0, column := 0, endColumn := 4
    children :=
      [⟨.variableName, some "y", 0, 0, 1, []⟩, ⟨.simpleExpansion, some "$x", 0, 2, 4, []⟩] }

/-- The command `sh -c 'y=$x'`. -/
def copyingNested : Node :=
  { kind := .command, text := some "sh -c 'y=$x'", row := 0, column := 0, endColumn := 12
    children :=
      [⟨.commandName, some "sh", 0, 0, 2, [⟨.word, some "sh", 0, 0, 2, []⟩]⟩,
        ⟨.word, some "-c", 0, 3, 5, []⟩, ⟨.rawString, some "'y=$x'", 0, 6, 12, []⟩] }

theorem visit_taint_noninterference_copyingNested :
    let run := fun tainted =>
      (visit (follow (fun _ => some copying) 1) {} false copyingNested).exec { tainted := tainted }
    ∅ ⊆ NameSet.ofList ["x"] ∧ (run ∅).2.tainted ⊆ (run (NameSet.ofList ["x"])).2.tainted ∧
      (run ∅).2.tainted.names = [] ∧ (run (NameSet.ofList ["x"])).2.tainted.names = ["x", "y"] := by
  have hsub : (∅ : NameSet) ⊆ NameSet.ofList ["x"] :=
    fun n hn => absurd hn (NameSet.not_mem_empty n)
  obtain ⟨-, -, -, -, -, -, -, -, -, mono⟩ :=
    visit_taint_noninterference (fun _ => some copying) 1 {} false copyingNested {} ∅
      (NameSet.ofList ["x"])
  exact ⟨hsub, mono hsub, by decide, by decide⟩

end ShellAudit.Walk
