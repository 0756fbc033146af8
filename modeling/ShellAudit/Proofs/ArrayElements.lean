-- SUMMARY: An array element is taken apart into its name and its index unless the index has an equals sign.
import ShellAudit.Proofs.BracedNames

/-!
# Elements of arrays

An element is named (`a[i]`), expanded (with a dollar sign and braces around it) or assigned
(`a[i]=v`). A text with an equals sign in it is taken for an assignment wherever the sign
stands. So each form is taken apart as it was put together if the index has no equals sign,
and otherwise the index is cut off before it: what it mentions from there on is not seen.
-/

namespace ShellAudit

namespace Text

theorem beforeEquals_append {s t : List Char} (hs : '=' ∉ s) :
    beforeEquals (s ++ t) = s ++ beforeEquals t := by
  refine List.takeWhile_append_of_pos fun c hc => ?_
  simpa using fun heq : c = '=' => hs (heq ▸ hc)

theorem beforeEquals_append_of_mem {s : List Char} (t : List Char) (hs : '=' ∈ s) :
    beforeEquals (s ++ t) = beforeEquals s := by
  induction s with
  | nil => exact absurd hs List.not_mem_nil
  | cons c s ih =>
    rw [beforeEquals, beforeEquals, List.cons_append, List.takeWhile_cons, List.takeWhile_cons]
    by_cases hc : c = '='
    · simp [hc]
    · have hrest := ih ((List.mem_cons.1 hs).resolve_left (Ne.symm hc))
      rw [beforeEquals, beforeEquals] at hrest
      rw [hrest]

/-- Trimming stops on the left at a text that it takes nothing of, and leaves the last
character of that text on the right. -/
theorem trim_append {p : Char → Bool} {s : List Char} {c : Char} (hs : ∀ d ∈ s, p d = false)
    (hc : p c = false) (t : List Char) : trim p (s ++ c :: t) = s ++ c :: trimEnd p t := by
  have hleft : (s ++ c :: t).dropWhile p = s ++ c :: t := by
    cases s with
    | nil => simp [hc]
    | cons d s => simp [hs d List.mem_cons_self]
  have hreverse : (s ++ c :: t).reverse = t.reverse ++ c :: s.reverse := by simp
  rw [trim, hleft, trimEnd, trimEnd, hreverse, List.dropWhile_append]
  split
  · rename_i hempty
    simp [List.isEmpty_iff.1 hempty, hc]
  · simp

end Text

namespace Subscript

/-- What stands before the first bracket is the name. -/
theorem cut_append {s : List Char} (hs : '[' ∉ s) (t : List Char) :
    cut (s ++ '[' :: t) = (s, t.dropLast) := by
  have hplace : (s ++ '[' :: t).idxOf? '[' = some s.length := by
    induction s with
    | nil => rfl
    | cons c s ih =>
      obtain ⟨hc, hs⟩ := List.ne_and_not_mem_of_not_mem_cons hs
      simp [List.idxOf?_cons, hc.symm, ih hs]
  rw [cut, hplace]
  simp

theorem parse_of_mem {s : List Char} (h : '=' ∈ s) :
    parse s = cut (Text.trim Text.isBlank (Text.beforeEquals s)) := by
  unfold parse
  exact if_pos h

theorem parse_of_not_mem {s : List Char} (h : '=' ∉ s) (hhead : s.head? ≠ some '$') :
    parse s = cut s := by
  unfold parse
  rw [if_neg h]
  split
  · exact absurd rfl hhead
  · rfl

/-- The element of an array at an index. -/
def element (array index : List Char) : List Char := array ++ '[' :: (index ++ [']'])

/-- The ways to write an element of an array. -/
inductive Form where
  | named
  | expanded
  | assigned (value : List Char)

namespace Form

/-- What stands before the element. -/
def opening : Form → List Char
  | expanded => ['$', '\x7b']
  | _ => []

/-- What stands behind the element. -/
def closing : Form → List Char
  | named => []
  | expanded => ['\x7d']
  | assigned value => '=' :: value

def written (form : Form) (array index : List Char) : List Char :=
  form.opening ++ element array index ++ form.closing

/-- The name and the index that are recorded. An equals sign cuts the index off, together with
the blanks and one more character before it, and leaves the name with what stands before it. -/
def recorded (form : Form) (array index : List Char) : List Char × List Char :=
  if '=' ∈ index then
    (form.opening ++ array, (Text.trimEnd Text.isBlank (Text.beforeEquals index)).dropLast)
  else (array, index)

end Form

/-- A name of an array: it has no bracket, equals sign, dollar sign or blank in it. -/
structure IsArrayName (array : List Char) : Prop where
  unbracketed : '[' ∉ array
  unassigned : '=' ∉ array
  undollared : '$' ∉ array
  unblank {c : Char} : c ∈ array → Text.isBlank c = false

/-! ## Reading what is written -/

section

variable {array index : List Char}

theorem cut_element (h : IsArrayName array) : cut (element array index) = (array, index) := by
  rw [element, cut_append h.unbracketed, List.dropLast_concat]

theorem not_mem_element (h : IsArrayName array) (hindex : '=' ∉ index) :
    '=' ∉ element array index := by
  simp [element, h.unassigned, hindex]

theorem trim_element (h : IsArrayName array) :
    Text.trim Text.isBlank (element array index) = element array index := by
  have hclosed : Text.trimEnd Text.isBlank (index ++ [']']) = index ++ [']'] := by
    rw [Text.trimEnd, List.reverse_append, List.reverse_singleton, List.singleton_append,
      List.dropWhile_cons, if_neg (by decide), List.reverse_cons, List.reverse_reverse]
  rw [element, Text.trim_append (fun c hc => h.unblank hc) (by decide), hclosed]

/-- Without an equals sign in the index, every form is taken apart as it was put together. -/
theorem parse_written_of_not_mem (h : IsArrayName array) (form : Form) (hindex : '=' ∉ index) :
    parse (form.written array index) = (array, index) := by
  have hunassigned := not_mem_element h hindex
  cases form with
  | named =>
    have hwritten : Form.named.written array index = element array index := by
      simp [Form.written, Form.opening, Form.closing]
    have hhead : (element array index).head? ≠ some '$' := by
      cases harray : array with
      | nil => simp [element]
      | cons c cs =>
        have hc : c ≠ '$' := fun hc => h.undollared (harray ▸ hc ▸ List.mem_cons_self)
        simpa [element] using hc
    rw [hwritten, parse_of_not_mem hunassigned hhead, cut_element h]
  | expanded =>
    have hwritten : Form.expanded.written array index =
        '$' :: '\x7b' :: (element array index ++ ['\x7d']) := rfl
    rw [hwritten, parse, if_neg (by simp [hunassigned])]
    show cut (element array index ++ ['\x7d']).dropLast = (array, index)
    rw [List.dropLast_concat, cut_element h]
  | assigned value =>
    have hwritten : (Form.assigned value).written array index =
        element array index ++ '=' :: value := rfl
    have hbefore : Text.beforeEquals (element array index ++ '=' :: value) = element array index := by
      rw [Text.beforeEquals_append hunassigned]
      simp [Text.beforeEquals]
    rw [hwritten, parse_of_mem (by simp), hbefore, trim_element h, cut_element h]

/-- An equals sign in the index is taken for the one of an assignment. -/
theorem parse_written_of_mem (h : IsArrayName array) (form : Form) (hindex : '=' ∈ index) :
    parse (form.written array index) =
      (form.opening ++ array,
        (Text.trimEnd Text.isBlank (Text.beforeEquals index)).dropLast) := by
  have hopening : ∀ c ∈ form.opening ++ array, c ≠ '=' ∧ c ≠ '[' ∧ Text.isBlank c = false := by
    intro c hc
    rcases List.mem_append.1 hc with hc | hc
    · cases form with
      | expanded =>
        simp only [Form.opening, List.mem_cons, List.not_mem_nil, or_false] at hc
        rcases hc with rfl | rfl <;> decide
      | named => exact absurd hc List.not_mem_nil
      | assigned value => exact absurd hc List.not_mem_nil
    · exact ⟨fun heq => h.unassigned (heq ▸ hc), fun heq => h.unbracketed (heq ▸ hc), h.unblank hc⟩
  have hwritten : form.written array index =
      (form.opening ++ array ++ ['[']) ++ (index ++ ']' :: form.closing) := by
    simp [Form.written, element]
  have hbefore : Text.beforeEquals (form.written array index) =
      (form.opening ++ array) ++ '[' :: Text.beforeEquals index := by
    have hfront : '=' ∉ form.opening ++ array ++ ['['] := by
      intro hmem
      rcases List.mem_append.1 hmem with hmem | hmem
      · exact (hopening _ hmem).1 rfl
      · exact absurd hmem (by decide)
    rw [hwritten, Text.beforeEquals_append hfront, Text.beforeEquals_append_of_mem _ hindex,
      List.append_assoc, List.singleton_append]
  have hmem : '=' ∈ form.written array index := by simp [Form.written, element, hindex]
  rw [parse_of_mem hmem, hbefore, Text.trim_append (fun c hc => (hopening c hc).2.2) (by decide),
    cut_append fun hmem => (hopening _ hmem).2.1 rfl]

theorem parse_written (h : IsArrayName array) (form : Form) :
    parse (form.written array index) = form.recorded array index := by
  unfold Form.recorded
  split
  · exact parse_written_of_mem h form ‹_›
  · exact parse_written_of_not_mem h form ‹_›

/-- What is recorded of an index has no equals sign in it. -/
theorem not_mem_recorded (form : Form) : '=' ∉ (form.recorded array index).2 := by
  unfold Form.recorded
  split
  · intro hmem
    have htrimmed : Text.trimEnd Text.isBlank (Text.beforeEquals index) <+: Text.beforeEquals index :=
      ⟨_, Text.trimEnd_append_takeWhile _ _⟩
    have hbefore : '=' ∈ Text.beforeEquals index :=
      htrimmed.subset ((List.dropLast_prefix _).subset hmem)
    exact absurd (List.all_eq_true.1 List.all_takeWhile _ hbefore) (by decide)
  · assumption

theorem recorded_eq_iff (form : Form) :
    form.recorded array index = (array, index) ↔ '=' ∉ index := by
  constructor
  · intro heq
    have hunassigned : '=' ∉ (form.recorded array index).2 := not_mem_recorded form
    rwa [heq] at hunassigned
  · intro hindex
    rw [Form.recorded, if_neg hindex]

end

end Subscript

namespace Check

theorem lineOrEmpty_of_nonneg (lines : List String) {line : Int} (h : 0 ≤ line) :
    ∃ content, lineOrEmpty lines line = .ok content := by
  obtain ⟨i, rfl⟩ := Int.eq_ofNat_of_zero_le h
  unfold lineOrEmpty
  split
  · rename_i hlt
    have hi : i < lines.length := Int.ofNat_lt.1 hlt
    refine ⟨lines[i].toList, ?_⟩
    rw [lineAt, Text.at?_ofNat, List.getElem?_eq_getElem hi]
  · exact ⟨_, rfl⟩

/-- The subscript is reported at its place, and nothing else is. -/
def Reports (script : Script) (tainted : NameSet) (u : Subscript) : Prop :=
  ∃ f : Finding, f.category = .arrayIndexAttack ∧ f.line = u.line ∧
    f.column = some (u.column + 1) ∧ indexedByInput script tainted u = .ok [f]

theorem reports_of_mentionsTaint (script : Script) {tainted : NameSet} {u : Subscript}
    (hline : 1 ≤ u.line) (h : mentionsTaint tainted u.index = true) : Reports script tainted u := by
  have hnonneg : 0 ≤ u.line - 1 := by omega
  obtain ⟨content, hcontent⟩ := lineOrEmpty_of_nonneg script.lines hnonneg
  have hplaced : u.line - 1 ≠ -1 := by omega
  refine ⟨{ category := .arrayIndexAttack
            severity := .high
            description := Wording.arrayIndex
            file := script.path
            line := u.line
            column := some (u.column + 1)
            content := some (String.ofList content)
            recommendation := some Wording.validateIndices }, rfl, rfl, rfl, ?_⟩
  rw [indexedByInput, if_pos h, hcontent]
  simp [bind, Except.bind, pure, Except.pure, Finding.place, hplaced]

theorem reports_iff {script : Script} {tainted : NameSet} {u : Subscript} (hline : 1 ≤ u.line) :
    Reports script tainted u ↔ ∃ v ∈ tainted, '$' :: v.toList <:+: u.index.toList := by
  rw [← mentionsTaint_iff]
  constructor
  · rintro ⟨f, -, -, -, hone⟩
    by_contra hnone
    rw [indexedByInput_eq_nil_iff.2 (Bool.not_eq_true _ ▸ hnone)] at hone
    cases hone
  · exact reports_of_mentionsTaint script hline

end Check

namespace Walk

open Subscript (Form)

/-- What is recorded for a node that is an element of an array in some form. -/
def elementRecord (ctx : Context) (n : Node) (form : Form) (array index : List Char) : Subscript :=
  { array := String.ofList (form.recorded array index).1
    index := String.ofList (form.recorded array index).2
    line := n.lineIn ctx + 1
    column := n.columnIn ctx }

/-- For an element of an array in any form, one subscript is recorded and nothing else changes. Its
name and its index are those of the element exactly if the index has no equals sign; otherwise
the index ends before it. The record is reported exactly if what is left of the index mentions
user input. -/
theorem subscript_of_element {array index : List Char} (h : Subscript.IsArrayName array)
    (form : Form) (ctx : Context) {n : Node}
    (htext : n.text = some (String.ofList (form.written array index))) :
    (∀ s, (subscript ctx n).exec s =
        (.ok (), { s with
          subscripts := s.subscripts ++ [elementRecord ctx n form array index] })) ∧
      ((elementRecord ctx n form array index).array = String.ofList array ∧
          (elementRecord ctx n form array index).index = String.ofList index ↔ '=' ∉ index) ∧
      (0 ≤ ctx.line → ∀ script tainted,
        (Check.Reports script tainted (elementRecord ctx n form array index) ↔
          ∃ v ∈ tainted, '$' :: v.toList <:+: (form.recorded array index).2) ∧
        (Check.indexedByInput script tainted (elementRecord ctx n form array index) = .ok [] ↔
          ¬∃ v ∈ tainted, '$' :: v.toList <:+: (form.recorded array index).2)) := by
  refine ⟨fun s => ?_, ?_, fun hline script tainted => ⟨?_, ?_⟩⟩
  · rw [exec_subscript htext, String.toList_ofList, Subscript.parse_written h]
    rfl
  · have hrecorded : form.recorded array index = (array, index) ↔ '=' ∉ index :=
      Subscript.recorded_eq_iff form
    rw [← hrecorded, Prod.ext_iff, elementRecord, String.ofList_inj, String.ofList_inj]
  · have hcounted : 1 ≤ (elementRecord ctx n form array index).line := by
      simp only [elementRecord, Node.lineIn]
      omega
    rw [Check.reports_iff hcounted, elementRecord, String.toList_ofList]
  · rw [Check.indexedByInput_eq_nil_iff, ← Bool.not_eq_true, Check.mentionsTaint_iff, elementRecord,
      String.toList_ofList]

/-- An element whose index is an element of another array, assigned a value with a bracket and an
equals sign in it. -/
def nestedElement : Node := ⟨.variableAssignment, some "a[b[$x]]=[=", 0, 4, 15, []⟩

theorem subscript_of_element_nested :
    Subscript.IsArrayName ['a'] ∧
      nestedElement.text = some (String.ofList
        (Form.written (.assigned ['[', '=']) ['a'] "b[$x]".toList)) ∧
      ((subscript {} nestedElement).exec {}).2.subscripts = [⟨"a", "b[$x]", 1, 4⟩] ∧
      Check.Reports (.ofText "a[b[$x]]=[=") ((∅ : NameSet).insert "x") ⟨"a", "b[$x]", 1, 4⟩ := by
  have hname : Subscript.IsArrayName ['a'] :=
    ⟨by decide, by decide, by decide, fun hc => by rw [List.mem_singleton.1 hc]; decide⟩
  have htext : nestedElement.text = some (String.ofList
      (Form.written (.assigned ['[', '=']) ['a'] "b[$x]".toList)) := by
    decide +kernel
  have hrecord : elementRecord {} nestedElement (.assigned ['[', '=']) ['a'] "b[$x]".toList =
      ⟨"a", "b[$x]", 1, 4⟩ := by
    decide +kernel
  have hmentions : '$' :: "x".toList <:+:
      (Form.recorded (.assigned ['[', '=']) ['a'] "b[$x]".toList).2 :=
    ⟨['b', '['], [']'], by decide +kernel⟩
  have hall := subscript_of_element hname _ {} htext
  rw [hrecord] at hall
  obtain ⟨hexec, -, hreports⟩ := hall
  refine ⟨hname, htext, by rw [hexec]; rfl, (hreports (Int.le_refl 0) _ _).1.2 ⟨"x", ?_, hmentions⟩⟩
  decide +kernel

/-- In a comparison or an assignment inside the index, the variable is lost. -/
theorem equals_sign_cuts_index :
    Subscript.parse "a[$x==1]".toList = ("a".toList, "$".toList) ∧
      Subscript.parse "$\x7ba[i=$x]\x7d".toList = ("$\x7ba".toList, []) ∧
      Subscript.parse "a[i=$x]=1".toList = ("a".toList, []) ∧
      Check.mentionsTaint ((∅ : NameSet).insert "x") "$x==1" = true ∧
      Check.mentionsTaint ((∅ : NameSet).insert "x") "$" = false := by
  decide +kernel

end Walk

end ShellAudit
