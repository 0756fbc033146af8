-- SUMMARY: An unquoted expansion is dropped for any variable that its line shares with an injection.
import ShellAudit.Proofs.Deduplication

/-!
# Expansions that an injection covers

An unquoted expansion is meant to be dropped where a command injection of its line is about
the same variable: the one that the expansion points at stands in the statement that the
injection points at. What is compared are all the variables of both contents, wherever they
stand. So all that is meant to be dropped is dropped, and more: where the findings of a line
show the line, an injection drops every expansion on it.
-/

namespace ShellAudit.Finding

/-- What the content of a finding holds from its column on. Columns are counted from one, and a
finding without a column, or with one before the content, points at nothing. -/
def pointed (f : Finding) : List Char :=
  match f.column with
  | some column => if 0 < column then f.text.drop (column.toNat - 1) else []
  | none => []

theorem pointed_suffix (f : Finding) : f.pointed <:+ f.text := by
  unfold pointed
  split
  · split
    · exact List.drop_suffix _ _
    · exact List.nil_suffix
  · exact List.nil_suffix

/-- The finding points at a variable: a dollar sign stands at its column, and the name is all
the word characters behind it. -/
def PointsAt (f : Finding) (name : List Char) : Prop :=
  name ≠ [] ∧ ∃ behind, f.pointed = '$' :: behind ∧ name = behind.takeWhile Text.isWord

/-- The characters that end a statement before its line ends. -/
def statementEnds : List Char := [';', '&', '|']

/-- The statement that a finding points at. -/
def statement (f : Finding) : List Char :=
  f.pointed.takeWhile fun c => !statementEnds.contains c

/-- The rule as it is meant: the statement that the first finding, a command injection, points
at shows the variable that the second one, an unquoted expansion on its line, points at. -/
def Concerns (g f : Finding) : Prop :=
  g.category = .commandInjection ∧ f.category = .variableExpansion ∧ g.line = f.line ∧
    ∃ name, Shows g.statement name ∧ PointsAt f name

/-- No finding with its key is kept. -/
def Dropped (fs : List Finding) (f : Finding) : Prop := ∀ d ∈ dedup fs, d.key ≠ f.key

theorem dropped_iff_covered {fs : List Finding} {f : Finding} (hf : f ∈ fs) :
    Dropped fs f ↔ ∃ g ∈ fs, Covers g f := by
  have kept : (∃ d ∈ dedup fs, d.key = f.key) ↔
      ∃ f' ∈ fs, f'.key = f.key ∧ ∀ g ∈ fs, ¬Covers g f' := mem_keys_dedupOn
  constructor
  · intro hdropped
    by_contra hfree
    simp only [not_exists, not_and] at hfree
    obtain ⟨d, hd, hkey⟩ := kept.2 ⟨f, hf, rfl, hfree⟩
    exact hdropped d hd hkey
  · rintro ⟨g, hg, hcovers⟩ d hd hkey
    obtain ⟨f', -, hkey', hfree⟩ := kept.1 ⟨d, hd, hkey⟩
    exact hfree g hg ((covers_congr rfl hkey').2 hcovers)

/-! ## Variables that a part of the content shows -/

theorem Shows.of_suffix {text part name : List Char} (h : Shows part name) (hpart : part <:+ text) :
    Shows text name := by
  obtain ⟨hne, before, behind, rfl, hname⟩ := h
  obtain ⟨front, rfl⟩ := hpart
  exact ⟨hne, front ++ before, behind, (List.append_assoc ..).symm, hname⟩

/-- A name that is shown before the first character of some kind is shown in the whole text, if
no such character may stand in a name. -/
theorem Shows.of_takeWhile {text name : List Char} {p : Char → Bool}
    (hp : ∀ c, p c = false → Text.isWord c = false) (h : Shows (text.takeWhile p) name) :
    Shows text name := by
  obtain ⟨hne, before, behind, htext, hname⟩ := h
  refine ⟨hne, before, behind ++ text.dropWhile p, ?_, ?_⟩
  · rw [← List.cons_append, ← List.append_assoc, ← htext, List.takeWhile_append_dropWhile]
  · have hstop : (text.dropWhile p).takeWhile Text.isWord = [] := by
      have hhead := List.head?_dropWhile_not p text
      cases hrest : text.dropWhile p with
      | nil => rfl
      | cons c rest =>
        simp only [hrest, List.head?_cons] at hhead
        simp [hp c hhead]
    rw [hname, List.takeWhile_append, hstop, List.append_nil]
    split
    · rename_i hlength
      exact (List.takeWhile_prefix _).eq_of_length hlength
    · rfl

theorem PointsAt.shows {f : Finding} {name : List Char} (h : PointsAt f name) :
    Shows f.text name := by
  obtain ⟨hne, behind, hpointed, hname⟩ := h
  have hshown : Shows f.pointed name := ⟨hne, [], behind, hpointed, hname⟩
  exact hshown.of_suffix f.pointed_suffix

theorem shows_of_statement {g : Finding} {name : List Char} (h : Shows g.statement name) :
    Shows g.text name := by
  have hends : ∀ c, (!statementEnds.contains c) = false → Text.isWord c = false := by
    intro c hc
    have hmem : c ∈ statementEnds := by simpa using hc
    simp only [statementEnds, List.mem_cons, List.not_mem_nil, or_false] at hmem
    rcases hmem with rfl | rfl | rfl <;> decide +kernel
  exact (h.of_takeWhile hends).of_suffix g.pointed_suffix

theorem Concerns.covers {g f : Finding} (h : Concerns g f) : Covers g f := by
  obtain ⟨hg, hf, hline, name, hstatement, hpoints⟩ := h
  exact ⟨hg, hf, hline, name, shows_of_statement hstatement, hpoints.shows⟩

/-- A finding that points at a variable shows it, and so does every other one with its content. -/
theorem PointsAt.covers {g f : Finding} {name : List Char} (h : PointsAt f name)
    (hg : g.category = .commandInjection) (hf : f.category = .variableExpansion)
    (hline : g.line = f.line) (hcontent : g.content = f.content) : Covers g f := by
  have htext : g.text = f.text := congrArg (fun content => (content.getD "").toList) hcontent
  exact ⟨hg, hf, hline, name, htext ▸ h.shows, h.shows⟩

/-- A finding is dropped exactly if a command injection covers it, that is if the two show some
common variable anywhere in their contents. Every expansion is dropped that an injection concerns.
Where the findings of a line show one content, every expansion that points at a variable is
dropped as soon as there is an injection on its line, whatever that is about. -/
theorem dropped_by_any_shared_variable (fs : List Finding) :
    (∀ f ∈ fs, Dropped fs f ↔ f.category = .variableExpansion ∧
        ∃ g ∈ fs, g.category = .commandInjection ∧ g.line = f.line ∧
          ∃ name, Shows g.text name ∧ Shows f.text name) ∧
      (∀ f ∈ fs, ∀ g ∈ fs, Concerns g f → Dropped fs f) ∧
      ((∀ f ∈ fs, ∀ g ∈ fs, g.line = f.line → g.content = f.content) →
        ∀ f ∈ fs, f.category = .variableExpansion → ∀ name, PointsAt f name →
          (Dropped fs f ↔ ∃ g ∈ fs, g.category = .commandInjection ∧ g.line = f.line)) := by
  refine ⟨fun f hf => ?_, fun f hf g hg hconcerns => ?_,
    fun hshared f hf hcategory name hpoints => ?_⟩
  · rw [dropped_iff_covered hf]
    constructor
    · rintro ⟨g, hg, hinjection, hexpansion, hline, hnames⟩
      exact ⟨hexpansion, g, hg, hinjection, hline, hnames⟩
    · rintro ⟨hexpansion, g, hg, hinjection, hline, hnames⟩
      exact ⟨g, hg, hinjection, hexpansion, hline, hnames⟩
  · exact (dropped_iff_covered hf).2 ⟨g, hg, hconcerns.covers⟩
  · rw [dropped_iff_covered hf]
    constructor
    · rintro ⟨g, hg, hinjection, -, hline, -⟩
      exact ⟨g, hg, hinjection, hline⟩
    · rintro ⟨g, hg, hinjection, hline⟩
      exact ⟨g, hg, hpoints.covers hinjection hcategory hline (hshared f hf g hg hline)⟩

/-- An injection by the first of two statements. -/
def evaluated : Finding :=
  { category := .commandInjection, severity := .critical, description := "", line := 1
    column := some 1, content := some "eval $x; echo $y" }

/-- An unquoted expansion in the second statement. -/
def echoed : Finding :=
  { evaluated with category := .variableExpansion, severity := .medium, column := some 15 }

/-- The expansion of `y` is dropped, although the injection is about `x` and no statement that
an injection points at shows `y`. -/
theorem other_variable_dropped :
    PointsAt echoed "y".toList ∧ evaluated.statement = "eval $x".toList ∧
      "y".toList ∉ dollarNames evaluated.statement ∧
      (dedup [evaluated, echoed]).map key = [evaluated.key] := by
  refine ⟨⟨by decide, "y".toList, by decide +kernel, by decide +kernel⟩, ?_, ?_, ?_⟩ <;>
    decide +kernel

end ShellAudit.Finding
