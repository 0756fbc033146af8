-- SUMMARY: Trees with branches left out, and a calculus of walks that do no more than others.
import ShellAudit.Proofs.Draft

/-!
# Pruned trees

A path through a conditional leaves some of its branches out. `Pruned` relates a
tree to those in which children of conditionals are left out.

`Covered J walk' walk Q` says that wherever `walk` comes to its end, `walk'` does
too, and that the tainted names of both, which `J` relates at the start, are
related at the end. A walk that leaves taint alone is covered for every `J`. Both
walks have to start where no function is defined and no name in scope is
qualified, so that a name means the same whatever the other walk has seen.
-/

namespace ShellAudit

/-- Whether the children of a node of this kind are branches. -/
def Kind.isBranching : Kind → Bool
  | .ifStatement | .caseStatement => true
  | _ => false

theorem Kind.isBranching_iff {kind : Kind} :
    kind.isBranching = true ↔ kind = .ifStatement ∨ kind = .caseStatement := by
  cases kind <;> simp [isBranching]

/-- A command that starts no shell and gives no qualified name to anything. -/
def Walk.Draft.Direct (draft : Walk.Draft) : Prop :=
  draft.name ∉ Walk.shells ∧ '.' ∉ draft.name.toList ∧
  (draft.name = "read" →
    ∀ argument ∈ draft.arguments, argument.toList.head? ≠ some '-' → '.' ∉ argument.toList)

instance : DecidablePred Walk.Draft.Direct := fun _ => inferInstanceAs (Decidable (_ ∧ _ ∧ _))

/-- A node whose effect does not depend on functions, on shells that it starts or
on qualified names. -/
def Node.Direct (n : Node) : Prop :=
  n.kind ≠ .functionDefinition ∧
  (n.kind = .declarationCommand → ∀ c ∈ n.children.head?, c.kind ≠ .localKeyword) ∧
  (n.kind = .command → n.draft.Direct) ∧
  (n.kind = .variableName → ∀ text ∈ n.text, '.' ∉ text.toList) ∧
  (n.kind = .variableAssignment → ∀ text ∈ n.text, '.' ∉ Text.beforeEquals text.toList)

instance : DecidablePred Node.Direct := fun _ => inferInstanceAs (Decidable (_ ∧ _ ∧ _ ∧ _ ∧ _))

mutual

/-- The first tree is the second without some of the children of conditionals.
Nothing is left out of an assignment. -/
inductive Pruned : Node → Node → Prop
  | intro {kind : Kind} {text : Option String} {row column endColumn : Nat}
      {children' children : List Node}
      (hassigned : kind = .variableAssignment → children' = children)
      (hchildren : PrunedAll kind.isBranching children' children) :
      Pruned ⟨kind, text, row, column, endColumn, children'⟩
        ⟨kind, text, row, column, endColumn, children⟩

/-- The first trees are pruned from the second ones; with `branches`, some may be
left out. -/
inductive PrunedAll : Bool → List Node → List Node → Prop
  | nil {branches : Bool} : PrunedAll branches [] []
  | keep {branches : Bool} {n' n : Node} {ns' ns : List Node} :
      Pruned n' n → PrunedAll branches ns' ns → PrunedAll branches (n' :: ns') (n :: ns)
  | drop {n : Node} {ns' ns : List Node} : PrunedAll true ns' ns → PrunedAll true ns' (n :: ns)

end

namespace Pruned

variable {n' n : Node}

theorem kind (h : Pruned n' n) : n'.kind = n.kind := by
  cases h
  rfl

theorem text (h : Pruned n' n) : n'.text = n.text := by
  cases h
  rfl

theorem row (h : Pruned n' n) : n'.row = n.row := by
  cases h
  rfl

theorem column (h : Pruned n' n) : n'.column = n.column := by
  cases h
  rfl

theorem children (h : Pruned n' n) : PrunedAll n.kind.isBranching n'.children n.children := by
  cases h with
  | intro _ hchildren => exact hchildren

theorem eq_of_assignment (h : Pruned n' n) (hkind : n.kind = .variableAssignment) : n' = n := by
  cases h with
  | intro hassigned _ => rw [hassigned hkind]

end Pruned

theorem PrunedAll.refl_of_pruned {branches : Bool} {ns : List Node} (h : ∀ n ∈ ns, Pruned n n) :
    PrunedAll branches ns ns := by
  induction ns with
  | nil => exact .nil
  | cons n ns ih =>
    exact .keep (h n List.mem_cons_self) (ih fun m hm => h m (List.mem_cons_of_mem _ hm))

theorem Pruned.refl (n : Node) : Pruned n n := by
  induction n using Node.induction with
  | step n ih =>
    obtain ⟨kind, text, row, column, endColumn, children⟩ := n
    exact .intro (fun _ => rfl) (.refl_of_pruned ih)

theorem PrunedAll.any_kind {branches : Bool} {ns' ns : List Node} (h : PrunedAll branches ns' ns)
    (p : Kind → Bool) (hany : ns'.any (p ·.kind) = true) : ns.any (p ·.kind) = true := by
  induction ns generalizing ns' with
  | nil =>
    cases h
    exact hany
  | cons n ns ih =>
    rw [List.any_cons, Bool.or_eq_true]
    cases h with
    | keep hn hns =>
      rw [List.any_cons, Bool.or_eq_true, hn.kind] at hany
      exact hany.imp_right (ih hns)
    | drop hns => exact .inr (ih hns hany)

theorem PrunedAll.of_sublist {ns' ns : List Node} (h : ns'.Sublist ns) : PrunedAll true ns' ns := by
  induction h with
  | slnil => exact .nil
  | cons n _ ih => exact .drop ih
  | cons_cons n _ ih => exact .keep (.refl n) ih

namespace Walk

/-- No function is defined, and no name in scope is qualified. -/
structure Calm (s : State) : Prop where
  functions : s.functions = []
  scope : ∀ name ∈ s.scope, '.' ∉ name.toList

/-- Without qualified names in scope, a name stands for itself. -/
theorem qualified?_eq_none {scope : NameSet} (h : ∀ name ∈ scope, '.' ∉ name.toList)
    (name : String) : Scope.qualified? scope name = none := by
  refine Scope.qualified?_eq_none fun x hx hdepth => ?_
  have hundotted : Scope.depth x = 0 := List.count_eq_zero.2 (h x hx)
  exact absurd hundotted (Nat.ne_of_gt hdepth)

/-- Two calm states whose tainted names are related. -/
structure Paired (J : NameSet → NameSet → Prop) (s' s : State) : Prop where
  calm' : Calm s'
  calm : Calm s
  tainted : J s'.tainted s.tainted

/-- Wherever the second walk comes to its end, the first does too. -/
def Covered (J : NameSet → NameSet → Prop) {α β : Type} (walk' : Walk β) (walk : Walk α)
    (Q : β → α → Prop) : Prop :=
  ∀ s' s, Paired J s' s → ∀ a t, walk.exec s = (.ok a, t) →
    ∃ b t', walk'.exec s' = (.ok b, t') ∧ Q b a ∧ Paired J t' t

/-- Relates all results. -/
def anyResult {α β : Type} (_ : β) (_ : α) : Prop := True

/-- A step that leaves functions, scope and taint as they are. -/
def Silent (step : Walk Unit) : Prop :=
  ∀ s, ∃ t, step.exec s = (.ok (), t) ∧
    t.functions = s.functions ∧ t.scope = s.scope ∧ t.tainted = s.tainted

theorem Silent.pure : Silent (pure ()) := fun s => ⟨s, rfl, rfl, rfl, rfl⟩

namespace Covered

variable {J : NameSet → NameSet → Prop} {α β γ δ : Type} {walk' : Walk β} {walk : Walk α}
  {P : β → α → Prop} {Q : δ → γ → Prop}

theorem pure {b : β} {a : α} (h : P b a) : Covered J (pure b) (pure a) P := by
  intro s' s hs a' t ht
  cases ht
  exact ⟨b, s', rfl, h, hs⟩

theorem throw (fault : Fault) : Covered J walk' (throw fault : Walk α) P := by
  intro s' s hs a t ht
  cases ht

theorem bind {next' : β → Walk δ} {next : α → Walk γ} (h : Covered J walk' walk P)
    (hnext : ∀ b a, P b a → Covered J (next' b) (next a) Q) :
    Covered J (walk' >>= next') (walk >>= next) Q := by
  intro s' s hs c u hu
  rw [exec_bind] at hu
  rcases hexec : walk.exec s with ⟨fault | a, t⟩ <;> rw [hexec] at hu
  · cases hu
  · obtain ⟨b, t', hexec', hP, ht⟩ := h s' s hs a t hexec
    obtain ⟨d, u', hu', hQ, hpaired⟩ := hnext b a hP t' t ht c u hu
    refine ⟨d, u', ?_, hQ, hpaired⟩
    rw [exec_bind, hexec']
    exact hu'

theorem weaken {R : β → α → Prop} (h : Covered J walk' walk P) (hPR : ∀ b a, P b a → R b a) :
    Covered J walk' walk R := by
  intro s' s hs a t ht
  obtain ⟨b, t', hexec, hP, hpaired⟩ := h s' s hs a t ht
  exact ⟨b, t', hexec, hPR b a hP, hpaired⟩

theorem map {f' : β → δ} {f : α → γ} (h : Covered J walk' walk P)
    (hPQ : ∀ b a, P b a → Q (f' b) (f a)) :
    Covered J (walk' >>= fun b => Pure.pure (f' b)) (walk >>= fun a => Pure.pure (f a)) Q :=
  .bind h fun b a hP => .pure (hPQ b a hP)

/-- The second walk may change its result at the end. -/
theorem map_right {f : α → γ} {R : β → γ → Prop} (h : Covered J walk' walk P)
    (hPR : ∀ b a, P b a → R b (f a)) : Covered J walk' (walk >>= fun a => Pure.pure (f a)) R := by
  have mapped : Covered J (walk' >>= Pure.pure) (walk >>= fun a => Pure.pure (f a)) R :=
    .bind h fun b a hP => .pure (hPR b a hP)
  rwa [bind_pure] at mapped

/-- Both walks may be asked for what the second one returns. -/
theorem returning {R : α → Prop} (h : Covered J walk' walk P) (hR : Returns walk R) :
    Covered J walk' walk fun b a => P b a ∧ R a := by
  intro s' s hs a t ht
  obtain ⟨b, t', hexec, hP, hpaired⟩ := h s' s hs a t ht
  exact ⟨b, t', hexec, ⟨hP, hR s a t ht⟩, hpaired⟩

/-- The second walk may take a step more, if this step leaves taint alone. -/
theorem skip {next : α → Walk γ} {walk' : Walk δ} {R : α → α → Prop}
    (h : ∀ K, Covered K walk walk R) (hnext : ∀ a, Covered J walk' (next a) Q) :
    Covered J walk' (walk >>= next) Q := by
  intro s' s hs c u hu
  rw [exec_bind] at hu
  rcases hexec : walk.exec s with ⟨fault | a, t⟩ <;> rw [hexec] at hu
  · cases hu
  · obtain ⟨b, t', -, -, -, hcalm, hkept⟩ :=
      h (fun _ tainted => tainted = s.tainted) s s ⟨hs.calm, hs.calm, rfl⟩ a t hexec
    exact hnext a s' t ⟨hs.calm', hcalm, hkept ▸ hs.tainted⟩ c u hu

theorem silent {step' step : Walk Unit} (h' : Silent step') (h : Silent step) :
    Covered J step' step anyResult := by
  intro s' s hs a t ht
  obtain ⟨u', hu', hfunctions', hscope', htainted'⟩ := h' s'
  obtain ⟨u, hu, hfunctions, hscope, htainted⟩ := h s
  cases hu.symm.trans ht
  refine ⟨(), u', hu', trivial, ⟨?_, ?_⟩, ⟨?_, ?_⟩, ?_⟩
  · rw [hfunctions']
    exact hs.calm'.functions
  · rw [hscope']
    exact hs.calm'.scope
  · rw [hfunctions]
    exact hs.calm.functions
  · rw [hscope]
    exact hs.calm.scope
  · rw [htainted, htainted']
    exact hs.tainted

/-- Two steps that add to the same record, whatever they add. -/
theorem recorded {ρ : Type} (record : ρ → Walk Unit) (h : ∀ entry, Silent (record entry))
    {entry' entry : ρ} : Covered J (record entry') (record entry) anyResult :=
  .silent (h entry') (h entry)

/-- What the second walk does is as if the first did nothing. -/
theorem nothing {step : Walk Unit} (h : ∀ K, Covered K step step anyResult) :
    Covered J (Pure.pure ()) step anyResult := by
  have skipped : Covered J (Pure.pure ()) (step >>= Pure.pure) anyResult :=
    skip h fun _ => .pure trivial
  rwa [bind_pure] at skipped

theorem text {n' n : Node} (h : n'.text = n.text) :
    Covered J (text n') (text n) fun b a => b = a ∧ n.text = some a := by
  unfold Walk.text
  rw [h]
  cases n.text with
  | none => exact .throw _
  | some written => exact .pure ⟨rfl, rfl⟩

theorem resolve {name : String} (h : '.' ∉ name.toList) :
    Covered J (resolve name) (resolve name) fun b a => b = name ∧ a = name := by
  have hexec {s : State} (hs : Calm s) :
      (Walk.resolve name).exec s = (.ok name, { s with scope := s.scope.insert name }) := by
    unfold Walk.resolve
    simp only [exec_bind, exec_get, qualified?_eq_none hs.scope]
    rfl
  have hcalm {s : State} (hs : Calm s) : Calm { s with scope := s.scope.insert name } := by
    refine ⟨hs.functions, fun n hn => ?_⟩
    rcases NameSet.mem_insert.1 hn with hn | rfl
    · exact hs.scope n hn
    · exact h
  intro s' s hs a t ht
  rw [hexec hs.calm] at ht
  cases ht
  exact ⟨name, _, hexec hs.calm', ⟨rfl, rfl⟩, hcalm hs.calm', hcalm hs.calm, hs.tainted⟩

theorem assignTaint (name : String) (value : Value) :
    Covered (· ⊆ ·) (assignTaint name value) (assignTaint name value) anyResult := by
  intro s' s hs a t ht
  cases ht
  exact ⟨(), _, rfl, trivial, ⟨hs.calm'.functions, hs.calm'.scope⟩,
    ⟨hs.calm.functions, hs.calm.scope⟩, NameSet.assign_mono hs.tainted name value⟩

theorem taint (name : String) : Covered (· ⊆ ·) (taint name) (taint name) anyResult := by
  intro s' s hs a t ht
  cases ht
  exact ⟨(), _, rfl, trivial, ⟨hs.calm'.functions, hs.calm'.scope⟩,
    ⟨hs.calm.functions, hs.calm.scope⟩, NameSet.insert_mono hs.tainted name⟩

theorem joinTaint {step' step : Walk Unit} (h : Covered (· ⊆ ·) step' step anyResult) :
    Covered (· ⊆ ·) (joinTaint step') (joinTaint step) anyResult := by
  intro s' s hs a t ht
  rw [exec_joinTaint] at ht
  rcases hexec : step.exec s with ⟨fault | _, u⟩ <;> rw [hexec] at ht <;> cases ht
  obtain ⟨_, u', hexec', -, hu⟩ := h s' s hs () u hexec
  refine ⟨(), _, by rw [exec_joinTaint, hexec'], trivial, ?_⟩
  exact ⟨⟨hu.calm'.functions, hu.calm'.scope⟩, ⟨hu.calm.functions, hu.calm.scope⟩,
    NameSet.union_mono hs.tainted hu.tainted⟩

/-- A branch covers what runs instead of it, since the taint it leaves is among
what is joined. -/
theorem branch {step' step : Walk Unit} (h : Covered (· ⊆ ·) step' step anyResult) :
    Covered (· ⊆ ·) step' (Walk.joinTaint step) anyResult := by
  intro s' s hs a t ht
  rw [exec_joinTaint] at ht
  rcases hexec : step.exec s with ⟨fault | _, u⟩ <;> rw [hexec] at ht <;> cases ht
  obtain ⟨_, u', hexec', -, hu⟩ := h s' s hs () u hexec
  refine ⟨(), u', hexec', trivial, hu.calm', ⟨hu.calm.functions, hu.calm.scope⟩, ?_⟩
  exact NameSet.Subset.trans hu.tainted (NameSet.subset_union_right _ _)

/-- The second walk may take a branch more, since it keeps what was tainted before. -/
theorem skip_branch {step : Walk Unit} {walk' : Walk δ} {next : Unit → Walk γ}
    (h : Covered (· ⊆ ·) step step anyResult) (hnext : ∀ a, Covered (· ⊆ ·) walk' (next a) Q) :
    Covered (· ⊆ ·) walk' (Walk.joinTaint step >>= next) Q := by
  intro s' s hs c u hu
  rw [exec_bind, exec_joinTaint] at hu
  rcases hexec : step.exec s with ⟨fault | _, t⟩ <;> rw [hexec] at hu
  · cases hu
  · obtain ⟨_, t', -, -, ht⟩ := h s s ⟨hs.calm, hs.calm, NameSet.Subset.refl _⟩ () t hexec
    refine hnext () s' { t with tainted := s.tainted.union t.tainted } ⟨hs.calm', ?_, ?_⟩ c u hu
    · exact ⟨ht.calm.functions, ht.calm.scope⟩
    · exact NameSet.Subset.trans hs.tainted (NameSet.subset_union_left _ _)

end Covered

end Walk

end ShellAudit
