-- SUMMARY: What the removal of duplicates keeps, in which order, and that only the findings matter.
import Mathlib.Data.List.Basic
import ShellAudit.Finding.Dedup

/-!
# What removing duplicates keeps

A command injection covers an unquoted expansion on its line if both show the same
variable. A key is kept exactly if some finding with this key is covered by none.
That says which findings are represented, and since it speaks of the findings and
not of their order, the keys that are kept do not depend on the order. What is kept
stands in groups, one for each line, in which nothing is left to remove.
-/

namespace ShellAudit.Finding

/-! ## Covering -/

/-- A text shows a variable: its name is all the word characters that follow some
dollar sign. -/
def Shows (text name : List Char) : Prop :=
  name ≠ [] ∧ ∃ before behind, text = before ++ '$' :: behind ∧ name = behind.takeWhile Text.isWord

theorem shows_nil (name : List Char) : ¬Shows [] name := by
  rintro ⟨-, before, behind, htext, -⟩
  simp at htext

theorem shows_cons (c : Char) (cs name : List Char) :
    Shows (c :: cs) name ↔
      (c = '$' ∧ name = cs.takeWhile Text.isWord ∧ name ≠ []) ∨ Shows cs name := by
  constructor
  · rintro ⟨hne, before, behind, htext, hname⟩
    cases before with
    | nil =>
      obtain ⟨rfl, rfl⟩ := List.cons.inj htext
      exact .inl ⟨rfl, hname, hne⟩
    | cons b before =>
      obtain ⟨-, htext⟩ := List.cons.inj htext
      exact .inr ⟨hne, before, behind, htext, hname⟩
  · rintro (⟨rfl, hname, hne⟩ | ⟨hne, before, behind, rfl, hname⟩)
    · exact ⟨hne, [], cs, rfl, hname⟩
    · exact ⟨hne, c :: before, behind, rfl, hname⟩

/-- The names that are taken from a text are the ones that it shows. -/
theorem mem_dollarNames {text name : List Char} : name ∈ dollarNames text ↔ Shows text name := by
  induction text with
  | nil => simp [dollarNames, shows_nil]
  | cons c cs ih =>
    rw [dollarNames, shows_cons]
    split
    · rename_i h
      rw [List.mem_cons, ih]
      exact or_congr_left ⟨fun hname => ⟨h.1, hname, hname ▸ h.2⟩, fun hname => hname.2.1⟩
    · rename_i h
      rw [ih, or_iff_right]
      rintro ⟨hc, rfl, hne⟩
      exact h ⟨hc, hne⟩

/-- The content of a finding; one without content has an empty one. -/
def text (f : Finding) : List Char := (f.content.getD "").toList

/-- The first finding is a command injection, the second an unquoted expansion on the
same line, and both show some variable. -/
def Covers (g f : Finding) : Prop :=
  g.category = .commandInjection ∧ f.category = .variableExpansion ∧ g.line = f.line ∧
    ∃ name, Shows g.text name ∧ Shows f.text name

/-- Whether findings cover one another can be read off their keys. -/
theorem covers_congr {g g' f f' : Finding} (hg : g.key = g'.key) (hf : f.key = f'.key) :
    Covers g f ↔ Covers g' f' := by
  simp only [key, Key.mk.injEq] at hg hf
  simp only [Covers, text, hg, hf]

theorem not_covers_of_injection {g f : Finding} (hf : f.category = .commandInjection) :
    ¬Covers g f := by
  rintro ⟨-, hexpansion, -⟩
  rw [hf] at hexpansion
  cases hexpansion

theorem isCovered_iff {group : List Finding} {f : Finding} (h : ∀ g ∈ group, g.line = f.line) :
    isCovered group f = true ↔ ∃ g ∈ group, Covers g f := by
  simp only [isCovered, Bool.and_eq_true, decide_eq_true_eq, List.any_eq_true,
    List.contains_iff_mem, shownNames, mem_dollarNames]
  constructor
  · rintro ⟨hf, g, hg, hinjection, name, hname, hname'⟩
    exact ⟨g, hg, hinjection, hf, h g hg, name, hname', hname⟩
  · rintro ⟨g, hg, hinjection, hf, -, name, hname', hname⟩
    exact ⟨hf, g, hg, hinjection, name, hname, hname'⟩

/-! ## The first of each key -/

section

variable {α : Type} {view : α → Finding}

theorem firstByKey_sublist (seen : List Key) (xs : List α) :
    (firstByKey view seen xs).Sublist xs := by
  induction xs generalizing seen with
  | nil => exact .slnil
  | cons x xs ih =>
    unfold firstByKey
    split
    · exact (ih seen).cons x
    · exact (ih _).cons_cons x

theorem mem_keys_firstByKey {k : Key} {seen : List Key} {xs : List α} :
    (∃ x ∈ firstByKey view seen xs, (view x).key = k) ↔
      (∃ x ∈ xs, (view x).key = k) ∧ k ∉ seen := by
  induction xs generalizing seen with
  | nil => simp [firstByKey]
  | cons x xs ih =>
    unfold firstByKey
    split
    · rename_i hseen
      rw [ih, List.exists_mem_cons_iff]
      refine and_congr_left fun hk => ?_
      rw [or_iff_right]
      rintro rfl
      exact hk hseen
    · rename_i hseen
      rw [List.exists_mem_cons_iff, List.exists_mem_cons_iff, ih, List.mem_cons, not_or]
      by_cases hk : (view x).key = k
      · subst hk
        simp [hseen]
      · simp [hk, Ne.symm hk]

theorem nodup_firstByKey (seen : List Key) (xs : List α) :
    ((firstByKey view seen xs).map fun x => (view x).key).Nodup := by
  induction xs generalizing seen with
  | nil => exact List.nodup_nil
  | cons x xs ih =>
    unfold firstByKey
    split
    · exact ih seen
    · rw [List.map_cons, List.nodup_cons, List.mem_map, mem_keys_firstByKey]
      exact ⟨fun h => h.2 List.mem_cons_self, ih _⟩

/-- Where no key comes twice, every element is the first of its key. -/
theorem firstByKey_of_nodup {seen : List Key} {xs : List α}
    (hnodup : (xs.map fun x => (view x).key).Nodup) (hseen : ∀ x ∈ xs, (view x).key ∉ seen) :
    firstByKey view seen xs = xs := by
  induction xs generalizing seen with
  | nil => rfl
  | cons x xs ih =>
    rw [List.map_cons, List.nodup_cons] at hnodup
    rw [firstByKey, if_neg (hseen x List.mem_cons_self)]
    refine congrArg _ (ih hnodup.2 fun y hy => ?_)
    rw [List.mem_cons, not_or]
    refine ⟨fun hkey => hnodup.1 ?_, hseen y (List.mem_cons_of_mem x hy)⟩
    exact hkey ▸ List.mem_map_of_mem hy

end

/-! ## Groups -/

section

variable {α : Type} (line : α → Int)

theorem nodup_eraseDups (lines : List Int) : lines.eraseDups.Nodup := by
  induction hlength : lines.length using Nat.strongRecOn generalizing lines with
  | ind n ih =>
    cases lines with
    | nil => exact List.nodup_nil
    | cons l ls =>
      have hshorter : (ls.filter fun l' => !l' == l).length < n := by
        have := List.length_filter_le (fun l' => !l' == l) ls
        rw [List.length_cons] at hlength
        omega
      rw [List.eraseDups_cons, List.nodup_cons, List.mem_eraseDups]
      exact ⟨by simp, ih _ hshorter _ rfl⟩

/-- Of groups that are put one after the other, the elements of one line are those
of the line's own group. -/
theorem filter_flatMap_groups {groups : Int → List α} (hgroups : ∀ l, ∀ x ∈ groups l, line x = l)
    {lines : List Int} (hlines : lines.Nodup) (l : Int) :
    (lines.flatMap groups).filter (line · = l) = if l ∈ lines then groups l else [] := by
  induction lines with
  | nil => rfl
  | cons l' ls ih =>
    obtain ⟨hl', hls⟩ := List.nodup_cons.1 hlines
    rw [List.flatMap_cons, List.filter_append, ih hls]
    by_cases h : l' = l
    · subst h
      have hall : (groups l').filter (line · = l') = groups l' :=
        List.filter_eq_self.2 fun x hx => by simpa using hgroups l' x hx
      rw [hall, if_neg hl', if_pos List.mem_cons_self, List.append_nil]
    · have hnone : (groups l').filter (line · = l) = [] :=
        List.filter_eq_nil_iff.2 fun x hx => by simpa [hgroups l' x hx] using h
      rw [hnone, List.nil_append]
      simp [Ne.symm h]

/-- Groups that are put one after the other show their lines in the same order. -/
theorem eraseDups_flatMap_groups {groups : Int → List α}
    (hgroups : ∀ l, ∀ x ∈ groups l, line x = l) {lines : List Int} (hlines : lines.Nodup)
    (hne : ∀ l ∈ lines, groups l ≠ []) :
    ((lines.flatMap groups).map line).eraseDups = lines := by
  induction lines with
  | nil => rfl
  | cons l ls ih =>
    obtain ⟨hl, hls⟩ := List.nodup_cons.1 hlines
    obtain ⟨x, xs, hxs⟩ := List.exists_cons_of_ne_nil (hne l List.mem_cons_self)
    have hfirst : (groups l).map line = l :: xs.map line := by
      rw [hxs, List.map_cons, hgroups l x (hxs ▸ List.mem_cons_self)]
    have hsame : (xs.map line).filter (fun l' => !l' == l) = [] := by
      refine List.filter_eq_nil_iff.2 fun l' hl' => ?_
      obtain ⟨y, hy, rfl⟩ := List.mem_map.1 hl'
      simp [hgroups l y (hxs ▸ List.mem_cons_of_mem x hy)]
    have hother : ((ls.flatMap groups).map line).filter (fun l' => !l' == l) =
        (ls.flatMap groups).map line := by
      refine List.filter_eq_self.2 fun l' hl' => ?_
      obtain ⟨y, hy, rfl⟩ := List.mem_map.1 hl'
      obtain ⟨l', hl', hy⟩ := List.mem_flatMap.1 hy
      have hne : line y ≠ l := by
        rw [hgroups l' y hy]
        rintro rfl
        exact hl hl'
      simpa using hne
    rw [List.flatMap_cons, List.map_append, hfirst, List.cons_append, List.eraseDups_cons,
      List.filter_append, hsame, hother, List.nil_append,
      ih hls fun l' hl' => hne l' (List.mem_cons_of_mem l hl')]

end

section

variable {α : Type} {view : α → Finding}

theorem dedupGroup_sublist (group : List α) : (dedupGroup view group).Sublist group :=
  (firstByKey_sublist [] _).trans List.filter_sublist

theorem dedupGroup_line {l : Int} {xs : List α} :
    ∀ x ∈ dedupGroup view (xs.filter fun x => (view x).line = l), (view x).line = l := by
  intro x hx
  simpa using List.of_mem_filter ((dedupGroup_sublist _).subset hx)

/-- A key of a group is kept exactly if a finding with this key is covered by none. -/
theorem mem_keys_dedupGroup {k : Key} {group : List α} {l : Int}
    (hgroup : ∀ x ∈ group, (view x).line = l) :
    (∃ x ∈ dedupGroup view group, (view x).key = k) ↔
      ∃ x ∈ group, (view x).key = k ∧ ∀ y ∈ group, ¬Covers (view y) (view x) := by
  have covered {x : α} (hx : x ∈ group) :
      isCovered (group.map view) (view x) = true ↔ ∃ y ∈ group, Covers (view y) (view x) := by
    rw [isCovered_iff]
    · simp
    · intro g hg
      obtain ⟨y, hy, rfl⟩ := List.mem_map.1 hg
      rw [hgroup y hy, hgroup x hx]
  rw [dedupGroup, mem_keys_firstByKey, and_iff_left List.not_mem_nil]
  constructor
  · rintro ⟨x, hx, hkey⟩
    obtain ⟨hx, hfree⟩ := List.mem_filter.1 hx
    refine ⟨x, hx, hkey, fun y hy hcovers => ?_⟩
    rw [(covered hx).2 ⟨y, hy, hcovers⟩] at hfree
    cases hfree
  · rintro ⟨x, hx, hkey, hfree⟩
    refine ⟨x, List.mem_filter.2 ⟨hx, ?_⟩, hkey⟩
    rw [Bool.not_eq_true', Bool.eq_false_iff]
    intro hcovered
    obtain ⟨y, hy, hcovers⟩ := (covered hx).1 hcovered
    exact hfree y hy hcovers

/-! ## All findings -/

theorem filter_line_dedupOn (xs : List α) (l : Int) :
    (dedupOn view xs).filter (fun x => (view x).line = l) =
      dedupGroup view (xs.filter fun x => (view x).line = l) := by
  rw [dedupOn, filter_flatMap_groups (fun x => (view x).line) (fun _ => dedupGroup_line)
    (nodup_eraseDups _)]
  split
  · rfl
  · rename_i hl
    have hnone : xs.filter (fun x => (view x).line = l) = [] := by
      refine List.filter_eq_nil_iff.2 fun x hx => ?_
      rw [List.mem_eraseDups] at hl
      rw [decide_eq_true_eq]
      rintro rfl
      exact hl (List.mem_map.2 ⟨x, hx, rfl⟩)
    rw [hnone]
    rfl

theorem mem_dedupOn {x : α} {xs : List α} :
    x ∈ dedupOn view xs ↔
      x ∈ dedupGroup view (xs.filter fun y => (view y).line = (view x).line) := by
  rw [← filter_line_dedupOn]
  simp

theorem mem_of_mem_dedupOn {x : α} {xs : List α} (h : x ∈ dedupOn view xs) : x ∈ xs :=
  List.mem_of_mem_filter ((dedupGroup_sublist _).subset (mem_dedupOn.1 h))

/-- A key is kept exactly if some finding with this key is covered by none. -/
theorem mem_keys_dedupOn {k : Key} {xs : List α} :
    (∃ x ∈ dedupOn view xs, (view x).key = k) ↔
      ∃ x ∈ xs, (view x).key = k ∧ ∀ y ∈ xs, ¬Covers (view y) (view x) := by
  -- A key names its line, so the question is one about the group of this line.
  have hline {x : α} (hx : (view x).key = k) : (view x).line = k.line := hx ▸ rfl
  have group : (∃ x ∈ dedupOn view xs, (view x).key = k) ↔
      ∃ x ∈ dedupGroup view (xs.filter fun y => (view y).line = k.line), (view x).key = k := by
    refine exists_congr fun x => and_congr_left fun hx => ?_
    rw [mem_dedupOn, hline hx]
  rw [group, mem_keys_dedupGroup fun x hx => by simpa using List.of_mem_filter hx]
  constructor
  · rintro ⟨x, hx, hkey, hfree⟩
    refine ⟨x, List.mem_of_mem_filter hx, hkey, fun y hy hcovers => ?_⟩
    exact hfree y (List.mem_filter.2 ⟨hy, by simpa [hline hkey] using hcovers.2.2.1⟩) hcovers
  · rintro ⟨x, hx, hkey, hfree⟩
    refine ⟨x, List.mem_filter.2 ⟨hx, by simpa using hline hkey⟩, hkey, fun y hy => ?_⟩
    exact hfree y (List.mem_of_mem_filter hy)

theorem not_covers_of_mem_dedupOn {x y : α} {xs : List α} (hx : x ∈ dedupOn view xs) (hy : y ∈ xs) :
    ¬Covers (view y) (view x) := by
  obtain ⟨x', -, hkey, hfree⟩ := mem_keys_dedupOn.1 ⟨x, hx, rfl⟩
  rw [← covers_congr rfl hkey]
  exact hfree y hy

/-- A finding that is not represented by its key is covered by one that is kept. -/
theorem represented {x : α} {xs : List α} (hx : x ∈ xs) :
    (∃ d ∈ dedupOn view xs, (view d).key = (view x).key) ∨
      ∃ d ∈ dedupOn view xs, Covers (view d) (view x) := by
  by_cases hfree : ∀ y ∈ xs, ¬Covers (view y) (view x)
  · exact .inl (mem_keys_dedupOn.2 ⟨x, hx, rfl, hfree⟩)
  · simp only [not_forall, not_not] at hfree
    obtain ⟨y, hy, hcovers⟩ := hfree
    -- What covers is an injection, which nothing covers, so its key is kept.
    obtain ⟨d, hd, hkey⟩ := mem_keys_dedupOn.2
      ⟨y, hy, rfl, fun z _ => not_covers_of_injection hcovers.1⟩
    exact .inr ⟨d, hd, (covers_congr hkey rfl).2 hcovers⟩

theorem nodup_keys_dedupOn (xs : List α) :
    ((dedupOn view xs).map fun x => (view x).key).Nodup := by
  rw [dedupOn, List.Nodup, List.pairwise_map, List.pairwise_flatMap]
  constructor
  · intro l _
    exact List.pairwise_map.1 (nodup_firstByKey [] _)
  · refine (nodup_eraseDups _).imp fun hne x hx y hy hkey => hne ?_
    rw [← dedupGroup_line x hx, ← dedupGroup_line y hy]
    exact congrArg Key.line hkey

theorem dedupOn_eq_flatMap_groups (xs : List α) :
    dedupOn view xs = (xs.map fun x => (view x).line).eraseDups.flatMap fun l =>
      (dedupOn view xs).filter fun x => (view x).line = l := by
  simp only [filter_line_dedupOn]
  rfl

/-- In what is kept there is nothing to remove: every key is there once, and nothing
is covered. -/
theorem dedupGroup_filter_dedupOn (xs : List α) (l : Int) :
    dedupGroup view ((dedupOn view xs).filter fun x => (view x).line = l) =
      (dedupOn view xs).filter fun x => (view x).line = l := by
  have hgroup : ∀ x ∈ (dedupOn view xs).filter fun x => (view x).line = l, (view x).line = l :=
    fun x hx => by simpa using List.of_mem_filter hx
  have hfree : ((dedupOn view xs).filter fun x => (view x).line = l).filter
      (fun x =>
        !isCovered (((dedupOn view xs).filter fun x => (view x).line = l).map view) (view x)) =
        (dedupOn view xs).filter fun x => (view x).line = l := by
    refine List.filter_eq_self.2 fun x hx => ?_
    rw [Bool.not_eq_true', Bool.eq_false_iff, Ne, isCovered_iff]
    · rintro ⟨g, hg, hcovers⟩
      obtain ⟨y, hy, rfl⟩ := List.mem_map.1 hg
      exact not_covers_of_mem_dedupOn (List.mem_of_mem_filter hx)
        (mem_of_mem_dedupOn (List.mem_of_mem_filter hy)) hcovers
    · intro g hg
      obtain ⟨y, hy, rfl⟩ := List.mem_map.1 hg
      rw [hgroup y hy, hgroup x hx]
  rw [dedupGroup, hfree]
  refine firstByKey_of_nodup ?_ fun _ _ => List.not_mem_nil
  exact (nodup_keys_dedupOn xs).sublist (List.filter_sublist.map _)

theorem dedupOn_lines (xs : List α) :
    ((dedupOn view xs).map fun x => (view x).line).eraseDups =
      (xs.map fun x => (view x).line).eraseDups := by
  rw [dedupOn]
  refine eraseDups_flatMap_groups (fun x => (view x).line) (fun _ => dedupGroup_line)
    (nodup_eraseDups _) fun l hl => ?_
  obtain ⟨x, hx, rfl⟩ := List.mem_map.1 (List.mem_eraseDups.1 hl)
  -- Whatever represents or covers a finding of the line is on the line too.
  have kept : ∃ d ∈ dedupOn view xs, (view d).line = (view x).line := by
    rcases @represented α view x xs hx with ⟨d, hd, hkey⟩ | ⟨d, hd, hcovers⟩
    · exact ⟨d, hd, congrArg Key.line hkey⟩
    · exact ⟨d, hd, hcovers.2.2.1⟩
  obtain ⟨d, hd, hline⟩ := kept
  rw [← filter_line_dedupOn]
  exact List.ne_nil_of_mem (List.mem_filter.2 ⟨hd, by simpa using hline⟩)

theorem dedupOn_idempotent (xs : List α) :
    dedupOn view (dedupOn view xs) = dedupOn view xs := by
  calc dedupOn view (dedupOn view xs)
      = (xs.map fun x => (view x).line).eraseDups.flatMap fun l =>
          dedupGroup view ((dedupOn view xs).filter fun x => (view x).line = l) := by
        rw [dedupOn, dedupOn_lines]
    _ = (xs.map fun x => (view x).line).eraseDups.flatMap fun l =>
          (dedupOn view xs).filter fun x => (view x).line = l := by
        simp only [dedupGroup_filter_dedupOn]
    _ = dedupOn view xs := (dedupOn_eq_flatMap_groups xs).symm

/-- What removing duplicates has to do to `xs` to give `kept`. -/
structure Deduplicated (view : α → Finding) (xs kept : List α) : Prop where
  /-- Nothing is made up. -/
  subset : ∀ d ∈ kept, d ∈ xs
  /-- No key is there twice. -/
  unique : (kept.map fun d => (view d).key).Nodup
  /-- Nothing is lost: what is not represented by its key is covered. -/
  represented : ∀ x ∈ xs,
    (∃ d ∈ kept, (view d).key = (view x).key) ∨ ∃ d ∈ kept, Covers (view d) (view x)
  /-- Nothing that is kept is covered. -/
  uncovered : ∀ d ∈ kept, ∀ e ∈ kept, ¬Covers (view e) (view d)
  /-- The groups stand in the order in which their lines first appear. -/
  grouped : kept = (xs.map fun x => (view x).line).eraseDups.flatMap fun l =>
    kept.filter fun d => (view d).line = l
  /-- Each group is in the order in which it was found. -/
  ordered : ∀ l : Int,
    (kept.filter fun d => (view d).line = l).Sublist (xs.filter fun x => (view x).line = l)

/-- Removing duplicates loses nothing that is not covered and keeps nothing twice. A
second removal changes nothing, and which keys are kept does not depend on the order
of what they are taken from. For `dedup`, the things are the findings themselves. -/
theorem dedupOn_deduplicates (view : α → Finding) (xs : List α) :
    Deduplicated view xs (dedupOn view xs) ∧
      dedupOn view (dedupOn view xs) = dedupOn view xs ∧
      ∀ ys, xs.Perm ys → ∀ k,
        k ∈ (dedupOn view xs).map (fun d => (view d).key) ↔
          k ∈ (dedupOn view ys).map fun d => (view d).key := by
  refine ⟨?_, dedupOn_idempotent xs, fun ys hperm k => ?_⟩
  · exact {
      subset := fun d hd => mem_of_mem_dedupOn hd
      unique := nodup_keys_dedupOn xs
      represented := fun x hx => represented hx
      uncovered := fun d hd e he => not_covers_of_mem_dedupOn hd (mem_of_mem_dedupOn he)
      grouped := dedupOn_eq_flatMap_groups xs
      ordered := fun l => filter_line_dedupOn xs l ▸ dedupGroup_sublist _ }
  · simp only [List.mem_map, mem_keys_dedupOn, hperm.mem_iff]

end

/-- The expansion on line 3 is covered, also where the injection comes first; the one
on line 1 shows the same variable and stays. -/
theorem dedupOn_deduplicates_reversed :
    let injection : Finding :=
      { category := .commandInjection, severity := .critical, description := "", line := 3
        column := some 6, content := some "eval $x" }
    let covered := { injection with category := .variableExpansion, severity := .high }
    let found := [covered, { covered with line := 1, content := some "echo $x" }, injection]
    found.Perm found.reverse ∧ Deduplicated id found (dedupOn id found) ∧
      ∀ k, k ∈ (dedupOn id found).map key ↔ k ∈ (dedupOn id found.reverse).map key := by
  intro injection covered found
  have reversed : found.Perm found.reverse := (List.reverse_perm found).symm
  obtain ⟨hdeduplicated, -, hkeys⟩ := dedupOn_deduplicates id found
  exact ⟨reversed, hdeduplicated, hkeys _ reversed⟩

end ShellAudit.Finding
