-- SUMMARY: Reading a lint report gives back the findings of the entries it was written from.
import Mathlib.Data.List.Infix
import ShellAudit.Lint
import ShellAudit.Proofs.Rows

/-!
# Written lint reports

A report is written from entries. Each has the number of a line, the line, and
information about it. Reading the report gives the findings of each entry for itself,
as long as no line of an entry can be taken for the head of one or for the section of
links. The head of an entry is read from its start, so a path may hold anything that
a head does. A number with more digits than can be read stops the reading, whatever the
other entries are.
-/

namespace ShellAudit

namespace Text

/-! ## Texts written line by line -/

/-- A text without line separators. -/
def OneLine (s : List Char) : Prop := ∀ c ∈ s, isLineBreak c = false

instance (s : List Char) : Decidable (OneLine s) :=
  List.decidableBAll (fun c => isLineBreak c = false) s

theorem OneLine.append {s t : List Char} (hs : OneLine s) (ht : OneLine t) : OneLine (s ++ t) :=
  fun c hc => (List.mem_append.1 hc).elim (hs c) (ht c)

/-- Lines one after the other, each ended by a line feed. -/
def unlines (ls : List (List Char)) : List Char := ls.flatMap (· ++ ['\n'])

theorem lines_append_feed {line : List Char} (h : OneLine line) (rest : List Char) :
    lines (line ++ '\n' :: rest) = line :: lines rest := by
  induction line with
  | nil => rw [List.nil_append, lines_cons fun _ => rfl, if_pos rfl]
  | cons c cs ih =>
    have hc := h c List.mem_cons_self
    have hfeed : c ≠ '\n' := by
      rintro rfl
      exact absurd hc (by decide)
    rw [List.cons_append, lines_cons (by simp [hc]), if_neg hfeed,
      ih fun d hd => h d (List.mem_cons_of_mem c hd)]
    rfl

theorem lines_unlines_append {ls : List (List Char)} (h : ∀ line ∈ ls, OneLine line)
    (rest : List Char) : lines (unlines ls ++ rest) = ls ++ lines rest := by
  induction ls with
  | nil => rfl
  | cons line ls ih =>
    have hls := ih fun l hl => h l (List.mem_cons_of_mem line hl)
    rw [unlines, List.flatMap_cons, List.append_assoc, List.append_assoc, List.singleton_append,
      lines_append_feed (h line List.mem_cons_self), ← unlines, hls, List.cons_append]

/-- The first line of a text starts as the text does. -/
theorem lines_append {front : List Char} (hne : front ≠ []) (h : OneLine front) (rest : List Char) :
    ∃ line more, lines (front ++ rest) = line :: more ∧ front <+: line := by
  induction front with
  | nil => exact absurd rfl hne
  | cons c cs ih =>
    have hc := h c List.mem_cons_self
    have hfeed : c ≠ '\n' := by
      rintro rfl
      exact absurd hc (by decide)
    rw [List.cons_append, lines_cons (by simp [hc]), if_neg hfeed]
    cases cs with
    | nil =>
      rw [List.nil_append]
      cases lines rest with
      | nil => exact ⟨[c], [], rfl, List.prefix_rfl⟩
      | cons line more => exact ⟨c :: line, more, rfl, List.prefix_append [c] line⟩
    | cons d ds =>
      obtain ⟨line, more, heq, hprefix⟩ :=
        ih (List.cons_ne_nil d ds) fun x hx => h x (List.mem_cons_of_mem c hx)
      rw [heq]
      exact ⟨c :: line, more, rfl, (List.prefix_cons_inj c).2 hprefix⟩

/-! ## Numerals -/

theorem toNat_of_isDigit {c : Char} (h : c.isDigit = true) :
    0x30 ≤ c.toNat ∧ c.toNat < 0x30 + 10 := by
  rw [Char.isDigit, Bool.and_eq_true, decide_eq_true_eq, decide_eq_true_eq] at h
  exact ⟨h.1, Nat.lt_succ_of_le h.2⟩

theorem digit?_of_isDigit {c : Char} (h : c.isDigit = true) :
    digit? c = some (c.toNat - '0'.toNat) := by
  rw [digit?, zeros, List.findSome?_cons, if_pos (toNat_of_isDigit h)]
  rfl

theorem isNumberBlank_of_isDigit {c : Char} (h : c.isDigit = true) : isNumberBlank c = false := by
  have := toNat_of_isDigit h
  simp only [isNumberBlank, isBlank]
  grind

theorem digits?_of_isDigit {s : List Char} (hne : s ≠ []) (h : ∀ c ∈ s, c.isDigit = true) :
    digits? s = some (s.map fun c => c.toNat - '0'.toNat) := by
  induction s with
  | nil => exact absurd rfl hne
  | cons c cs ih =>
    have hc := digit?_of_isDigit (h c List.mem_cons_self)
    have hcs := fun d hd => h d (List.mem_cons_of_mem c hd)
    cases cs with
    | nil => rw [digits?, hc, Option.map_some, List.map_cons, List.map_nil]
    | cons d ds =>
      have hd : d ≠ '_' := by
        rintro rfl
        exact absurd (hcs '_' List.mem_cons_self) (by decide)
      rw [digits?, hc, ih (List.cons_ne_nil d ds) hcs]
      · rfl
      · exact fun h => List.cons_ne_nil d ds h
      · exact fun _ h => hd (List.cons.inj h).1

/-- A number is read back unless it has too many digits. -/
theorem integer?_toDigits (n : Nat) :
    integer? (Nat.toDigits 10 n) =
      if (Nat.toDigits 10 n).length ≤ maxDigits then some (n : Int) else none := by
  have hdigit {c : Char} (hc : c ∈ Nat.toDigits 10 n) : c.isDigit = true :=
    Nat.isDigit_of_mem_toDigits (by decide) (by decide) hc
  have htrim : trim isNumberBlank (Nat.toDigits 10 n) = Nat.toDigits 10 n :=
    trim_eq_self fun c hc => isNumberBlank_of_isDigit (hdigit hc)
  have hnatural : natural? (Nat.toDigits 10 n) =
      if (Nat.toDigits 10 n).length ≤ maxDigits then some n else none := by
    rw [natural?, digits?_of_isDigit Nat.toDigits_ne_nil fun c hc => hdigit hc]
    simp only [List.length_map, List.foldl_map]
    rw [← Nat.ofDigitChars_eq_foldl, Nat.ofDigitChars_ten_toDigits]
  unfold integer?
  rw [htrim]
  split
  · rename_i ds hds
    exact absurd (hdigit (hds ▸ List.mem_cons_self)) (by decide)
  · rename_i ds hds
    exact absurd (hdigit (hds ▸ List.mem_cons_self)) (by decide)
  · rw [hnatural]
    split <;> rfl

/-! ## Searching behind a front -/

theorem find?_append_of_not_mem {c : Char} {front : List Char} (h : c ∉ front) (rest : List Char) :
    find? [c] (front ++ c :: rest) = some front.length := by
  induction front with
  | nil => simp [find?, List.isPrefixOf]
  | cons d ds ih =>
    rw [List.mem_cons, not_or] at h
    rw [List.cons_append, find?, if_neg (by simp [List.isPrefixOf, h.1]), ih h.2]
    rfl

end Text

namespace Lint

/-! ## Writing -/

/-- What a report says about a line of the script. -/
structure Entry where
  number : Nat
  source : List Char
  infos : List (List Char)
deriving DecidableEq, Repr, Inhabited

/-- A line that is taken neither for the head of an entry nor for that of the links. -/
def Inner (head line : List Char) : Prop :=
  Text.OneLine line ∧ head.isPrefixOf line = false ∧ linksHead.isPrefixOf line = false

instance (head line : List Char) : Decidable (Inner head line) :=
  inferInstanceAs (Decidable (_ ∧ _ ∧ _))

namespace Entry

/-- The line with which an entry starts. -/
def title (head : List Char) (e : Entry) : List Char :=
  head ++ (" line ".toList ++ (Nat.toDigits 10 e.number ++ [':']))

def lines (head : List Char) (e : Entry) : List (List Char) :=
  e.title head :: e.source :: (e.infos ++ [[]])

/-- An entry whose lines are not taken for those of another one. -/
def Separable (head : List Char) (e : Entry) : Prop :=
  1 ≤ e.number ∧ ∀ line ∈ e.source :: e.infos, Inner head line

instance (head : List Char) (e : Entry) : Decidable (e.Separable head) :=
  haveI := List.decidableBAll (Inner head) (e.source :: e.infos)
  inferInstanceAs (Decidable (_ ∧ _))

/-- The number of an entry has few enough digits to be read. -/
def NumberFits (e : Entry) : Prop := (Nat.toDigits 10 e.number).length ≤ Text.maxDigits

instance (e : Entry) : Decidable e.NumberFits := inferInstanceAs (Decidable (_ ≤ _))

end Entry

/-- A report: entries, perhaps behind an empty line, perhaps with links behind them. -/
structure Report where
  opened : Bool := false
  entries : List Entry
  links : Option (List Char) := none
deriving DecidableEq, Repr, Inhabited

namespace Report

/-- The section of links. -/
def linked (r : Report) : List Char := (r.links.map (linksHead ++ ·)).getD []

def text (head : List Char) (r : Report) : List Char :=
  Text.unlines ((if r.opened then [[]] else []) ++ r.entries.flatMap (Entry.lines head)) ++ r.linked

/-- The bytes that a linter prints for a report. -/
def bytes (script : Script) (r : Report) : ByteArray :=
  (String.ofList (r.text (headOf script))).toUTF8

/-- A report whose entries can be told apart. Only entries follow an empty line. -/
def Separable (head : List Char) (r : Report) : Prop :=
  (r.opened = true → r.entries ≠ []) ∧ ∀ e ∈ r.entries, e.Separable head

instance (head : List Char) (r : Report) : Decidable (r.Separable head) :=
  haveI := List.decidableBAll (Entry.Separable head) r.entries
  inferInstanceAs (Decidable (_ ∧ _))

/-- A report that can be read back: its entries can be told apart, and their numbers read. -/
def WellFormed (head : List Char) (r : Report) : Prop :=
  r.Separable head ∧ ∀ e ∈ r.entries, e.NumberFits

instance (head : List Char) (r : Report) : Decidable (r.WellFormed head) :=
  haveI := List.decidableBAll Entry.NumberFits r.entries
  inferInstanceAs (Decidable (_ ∧ _))

end Report

/-! ## Cutting a report into entries -/

section

variable {head : List Char}

theorem entriesFrom_cons_of_not_head {line : List Char} (h : head.isPrefixOf line = false)
    (current rest : List (List Char)) :
    entriesFrom head current (line :: rest) = entriesFrom head (current ++ [line]) rest := by
  rw [entriesFrom.eq_def head current (line :: rest)]
  simp only [h, Bool.false_eq_true, if_false]

theorem entriesFrom_append {inner : List (List Char)}
    (h : ∀ line ∈ inner, head.isPrefixOf line = false) (current rest : List (List Char)) :
    entriesFrom head current (inner ++ rest) = entriesFrom head (current ++ inner) rest := by
  induction inner generalizing current with
  | nil => rw [List.nil_append, List.append_nil]
  | cons line inner ih =>
    rw [List.cons_append, entriesFrom_cons_of_not_head (h line List.mem_cons_self),
      ih fun l hl => h l (List.mem_cons_of_mem line hl), List.append_assoc, List.singleton_append]

/-- What a head that comes makes of the lines seen before: an entry, if they start with a
head as well. -/
def closed (head : List Char) (current : List (List Char)) : List (List (List Char)) :=
  if current.head?.any head.isPrefixOf then [current] else []

theorem entriesFrom_cons_of_head {line : List Char} (h : head.isPrefixOf line = true)
    (current rest : List (List Char)) :
    entriesFrom head current (line :: rest) =
      closed head current ++ entriesFrom head [line] rest := by
  rw [entriesFrom.eq_def head current (line :: rest), closed]
  simp only [h, if_true]
  cases current with
  | nil => rfl
  | cons first more =>
    by_cases hfirst : head.isPrefixOf first = true <;> simp [hfirst]

variable (hhead : head.head? = some 'I') {e : Entry}

namespace Entry

theorem isPrefixOf_title (head : List Char) (e : Entry) : head.isPrefixOf (e.title head) = true :=
  List.isPrefixOf_iff_prefix.2 (List.prefix_append _ _)

include hhead

theorem inner_nil : Inner head [] := by
  refine ⟨fun c hc => absurd hc List.not_mem_nil, ?_, rfl⟩
  cases head with
  | nil => cases hhead
  | cons => rfl

/-- The lines of an entry behind its title. -/
theorem Separable.inner (h : e.Separable head) {line : List Char}
    (hline : line ∈ e.source :: (e.infos ++ [[]])) : Inner head line := by
  rcases List.mem_append.1 (List.cons_append ▸ hline) with hline | hline
  · exact h.2 line hline
  · exact List.mem_singleton.1 hline ▸ inner_nil hhead

theorem Separable.entriesFrom_lines (h : e.Separable head) (current rest : List (List Char)) :
    entriesFrom head current (e.lines head ++ rest) =
      closed head current ++ entriesFrom head (e.lines head) rest := by
  rw [lines, List.cons_append, entriesFrom_cons_of_head (e.isPrefixOf_title head),
    entriesFrom_append fun line hline => (h.inner hhead hline).2.1]
  rfl

/-- No line of an entry starts the links. -/
theorem Separable.not_links (h : e.Separable head) {line : List Char}
    (hline : line ∈ e.lines head) : linksHead.isPrefixOf line = false := by
  rcases List.mem_cons.1 hline with rfl | hline
  · obtain ⟨rest, rfl⟩ := List.head?_eq_some_iff.1 hhead
    rfl
  · exact (h.inner hhead hline).2.2

theorem Separable.oneLine (h : e.Separable head) (hone : Text.OneLine head) {line : List Char}
    (hline : line ∈ e.lines head) : Text.OneLine line := by
  have hdigits : Text.OneLine (Nat.toDigits 10 e.number) := fun c hc => by
    have := Text.toNat_of_isDigit (Nat.isDigit_of_mem_toDigits (by decide) (by decide) hc)
    simp only [Text.isLineBreak]
    grind
  rcases List.mem_cons.1 hline with rfl | hline
  · exact hone.append (.append (by decide) (hdigits.append (by decide)))
  · exact (h.inner hhead hline).1

end Entry

include hhead

theorem entriesFrom_flatMap {es : List Entry} (h : ∀ e ∈ es, e.Separable head) :
    entriesFrom head (e.lines head) (es.flatMap (Entry.lines head)) =
      (e :: es).map (Entry.lines head) := by
  induction es generalizing e with
  | nil => rfl
  | cons next es ih =>
    have hclosed : closed head (e.lines head) = [e.lines head] :=
      if_pos (e.isPrefixOf_title head)
    rw [List.flatMap_cons, (h next List.mem_cons_self).entriesFrom_lines hhead,
      ih fun e he => h e (List.mem_cons_of_mem next he), hclosed]
    rfl

namespace Report

omit hhead in
theorem takeWhile_linked (r : Report) :
    (Text.lines r.linked).takeWhile (fun line => !linksHead.isPrefixOf line) = [] := by
  unfold linked
  cases r.links with
  | none => rfl
  | some links =>
    obtain ⟨line, more, heq, hprefix⟩ :=
      @Text.lines_append linksHead (by decide) (by decide) links
    rw [Option.map_some, Option.getD_some, heq, List.takeWhile_cons,
      List.isPrefixOf_iff_prefix.2 hprefix]
    rfl

variable {r : Report} (h : r.Separable head) (hone : Text.OneLine head)

include h hone

/-- The lines up to the links. -/
theorem Separable.takeWhile_lines :
    (Text.lines (r.text head)).takeWhile (fun line => !linksHead.isPrefixOf line) =
      (if r.opened then [[]] else []) ++ r.entries.flatMap (Entry.lines head) := by
  have hlines : ∀ line ∈ (if r.opened then [[]] else []) ++ r.entries.flatMap (Entry.lines head),
      Text.OneLine line ∧ linksHead.isPrefixOf line = false := by
    intro line hline
    rcases List.mem_append.1 hline with hline | hline
    · split at hline
      · exact List.mem_singleton.1 hline ▸ ⟨(Entry.inner_nil hhead).1, rfl⟩
      · cases hline
    · obtain ⟨e, he, hline⟩ := List.mem_flatMap.1 hline
      exact ⟨(h.2 e he).oneLine hhead hone hline, (h.2 e he).not_links hhead hline⟩
  rw [text, Text.lines_unlines_append fun line hline => (hlines line hline).1,
    List.takeWhile_append_of_pos fun line hline => by rw [(hlines line hline).2]; rfl,
    r.takeWhile_linked, List.append_nil]

theorem Separable.entries_text :
    Lint.entries head (r.text head) = r.entries.map (Entry.lines head) := by
  rw [Lint.entries, h.takeWhile_lines hhead hone]
  cases hentries : r.entries with
  | nil =>
    rw [if_neg fun hopened => h.1 hopened hentries]
    rfl
  | cons e es =>
    have hwf := fun x hx => h.2 x (hentries ▸ hx)
    have hnil := (Entry.inner_nil hhead).2.1
    have hopening : ∀ line ∈ if r.opened then [[]] else [], head.isPrefixOf line = false := by
      intro line hline
      split at hline
      · exact List.mem_singleton.1 hline ▸ hnil
      · cases hline
    have hclosed : closed head ([] ++ if r.opened then [[]] else []) = [] := by
      unfold closed
      split <;> simp_all
    rw [List.flatMap_cons, entriesFrom_append hopening,
      (hwf e List.mem_cons_self).entriesFrom_lines hhead, hclosed, List.nil_append,
      entriesFrom_flatMap hhead fun x hx => hwf x (List.mem_cons_of_mem e hx)]

end Report

end

/-! ## Numbers of lines -/

theorem lineNumber_title (head : List Char) (e : Entry) (more : List (List Char)) :
    lineNumber head (e.title head :: more) =
      if e.NumberFits then .ok (e.number : Int) else .error .notANumber := by
  obtain ⟨rest, hrest⟩ :
      ∃ rest, ['\n'].intercalate (e.title head :: more) = e.title head ++ rest := by
    cases more with
    | nil => exact ⟨[], by rw [List.intercalate_singleton, List.append_nil]⟩
    | cons line more => exact ⟨_, by rw [List.intercalate_cons_cons, List.append_assoc]⟩
  have hdigit {c : Char} (hc : c ∈ Nat.toDigits 10 e.number) : c.isDigit = true :=
    Nat.isDigit_of_mem_toDigits (by decide) (by decide) hc
  have hbehind : (e.title head ++ rest).drop head.length =
      (" line ".toList ++ Nat.toDigits 10 e.number) ++ ':' :: rest := by
    rw [Entry.title, List.append_assoc, List.drop_left]
    simp only [List.append_assoc, List.singleton_append]
  have hlength : head.length ≤ (e.title head ++ rest).length := by
    rw [Entry.title, List.append_assoc, List.length_append]
    exact Nat.le_add_right _ _
  have hword : Text.findFrom? "line".toList head.length (e.title head ++ rest) =
      some (1 + head.length) := by
    rw [Text.findFrom?, if_pos hlength, hbehind]
    rfl
  have hcolon : Text.findFrom? [':'] head.length (e.title head ++ rest) =
      some ((" line ".toList ++ Nat.toDigits 10 e.number).length + head.length) := by
    rw [Text.findFrom?, if_pos hlength, hbehind, Text.find?_append_of_not_mem]
    · rfl
    · intro hc
      rcases List.mem_append.1 hc with hc | hc
      · exact absurd hc (by decide)
      · exact absurd (hdigit hc) (by decide)
  have hnumber : ((e.title head ++ rest).take
      ((" line ".toList ++ Nat.toDigits 10 e.number).length + head.length)).drop
        (1 + head.length + 5) =
      Nat.toDigits 10 e.number := by
    have hspan : (" line ".toList ++ Nat.toDigits 10 e.number).length + head.length -
        (head.length + 6) = (Nat.toDigits 10 e.number).length := by
      have hword : " line ".toList.length = 6 := rfl
      rw [List.length_append]
      omega
    rw [List.drop_take, show 1 + head.length + 5 = head.length + 6 by omega, ← List.drop_drop,
      hbehind, hspan, List.append_assoc]
    exact List.take_left
  by_cases hfits : e.NumberFits
  · have hread := (Text.integer?_toDigits e.number).trans (if_pos hfits)
    simp only [lineNumber, hrest, hword, hcolon, hnumber, hread, if_pos hfits]
  · have hread := (Text.integer?_toDigits e.number).trans (if_neg hfits)
    simp only [lineNumber, hrest, hword, hcolon, hnumber, hread, if_neg hfits]

/-! ## Findings -/

/-- The finding of a trouble that an information line about line `number` speaks of. -/
def placed (script : Script) (number : Nat) (info : List Char) (t : Trigger) : Finding where
  category := t.category
  severity := t.severity
  description := t.description
  file := script.path
  line := number
  column := some ((info.takeWhile (· = ' ')).length + 1)
  content := script.rows[number - 1]?.map Finding.rowContent
  recommendation := some t.recommendation

/-- The findings of an information line about line `number`. -/
def infoFindings (script : Script) (number : Nat) (info : List Char) : List Finding :=
  (triggers info).map (placed script number info)

theorem mapM_eq_ok {α β : Type} {f : α → Except Fault β} {g : α → β} {l : List α}
    (h : ∀ a ∈ l, f a = .ok (g a)) : l.mapM f = .ok (l.map g) := by
  induction l with
  | nil => rfl
  | cons a l ih =>
    rw [List.mapM_cons, h a List.mem_cons_self, ih fun b hb => h b (List.mem_cons_of_mem a hb)]
    rfl

/-- A fault that is the only one to stop on the way is the one that the way ends with. -/
theorem mapM_eq_error {α β : Type} {f : α → Except Fault β} {fault : Fault} {l : List α}
    (h : ∀ a ∈ l, (∃ b, f a = .ok b) ∨ f a = .error fault)
    (hstops : ∃ a ∈ l, f a = .error fault) : l.mapM f = .error fault := by
  induction l with
  | nil =>
    obtain ⟨a, ha, -⟩ := hstops
    cases ha
  | cons a l ih =>
    obtain ⟨hfirst, hrest⟩ := List.forall_mem_cons.1 h
    rw [List.mapM_cons]
    rcases hfirst with ⟨b, hb⟩ | hfault
    · have hlater : ∃ a ∈ l, f a = .error fault := by
        rcases (List.exists_mem_cons_iff _ a l).1 hstops with hfault | hlater
        · rw [hb] at hfault
          cases hfault
        · exact hlater
      rw [hb, ih hrest hlater]
      rfl
    · rw [hfault]
      rfl

theorem readInfo_eq (script : Script) {number : Nat} (h : 1 ≤ number) (info : List Char) :
    readInfo script number info = .ok (infoFindings script number info) := by
  refine mapM_eq_ok fun t _ => ?_
  have hline : ¬((number : Int) - 1 = -1) := by omega
  have hindex : ((number : Int) - 1).toNat = number - 1 := by omega
  simp only [Finding.place, hline, if_false, Option.none_or, hindex, placed]
  rw [if_pos (by omega)]
  congr 2
  omega

/-- The findings of the information lines of an entry, up to the error that ends them. -/
def Entry.findings (script : Script) (e : Entry) : List Finding :=
  (e.infos.takeWhile fun info => !Text.contains info lastError).flatMap
    (infoFindings script e.number)

theorem readEntry_lines {script : Script} {e : Entry} (h : e.Separable (headOf script)) :
    readEntry script (e.lines (headOf script)) =
      if e.NumberFits then .ok (e.findings script) else .error .notANumber := by
  have hinfos := fun infos => @mapM_eq_ok _ _ _ _ infos fun info _ => readInfo_eq script h.1 info
  rw [readEntry, Entry.lines, lineNumber_title]
  split
  · simp only [bind, Except.bind, pure, Except.pure, hinfos, List.drop_succ_cons, List.drop_zero]
    rw [Except.ok.injEq, ← List.flatMap_def, Entry.findings, List.takeWhile_append]
    split
    · rename_i hlength
      have hall := (List.takeWhile_prefix _).eq_of_length hlength
      -- The empty line that ends the entry is about nothing.
      have hblank : ([[]].takeWhile fun info => !Text.contains info lastError).flatMap
          (infoFindings script e.number) = [] := rfl
      rw [List.flatMap_append, hall, hblank, List.append_nil]
    · rfl
  · rfl

theorem headOf_head? (script : Script) : (headOf script).head? = some 'I' := rfl

theorem headOf_oneLine {script : Script}
    (hpath : ∀ path, script.path = some path → Text.OneLine path.toList) :
    Text.OneLine (headOf script) := by
  refine Text.OneLine.append (by decide) ?_
  have hstdin : Text.OneLine "-".toList := by decide
  unfold path?
  cases hscript : script.path with
  | none => exact hstdin
  | some path =>
    rw [Option.filter]
    split
    · exact hpath path hscript
    · exact hstdin

section

variable {script : Script} (hhead : Text.OneLine (headOf script)) {r : Report}

include hhead

theorem read_text_eq_mapM (h : r.Separable (headOf script)) :
    read script (r.text (headOf script)) =
      (r.entries.mapM fun e => readEntry script (e.lines (headOf script))).map List.flatten := by
  rw [read, h.entries_text (headOf_head? script) hhead, List.mapM_map]
  rfl

/-- A report is read as the findings of its entries, one entry after the other. -/
theorem read_text (h : r.Separable (headOf script)) (hfits : ∀ e ∈ r.entries, e.NumberFits) :
    read script (r.text (headOf script)) = .ok (r.entries.flatMap (Entry.findings script)) := by
  have hentries : r.entries.mapM (fun e => readEntry script (e.lines (headOf script))) =
      .ok (r.entries.map (Entry.findings script)) := by
    refine mapM_eq_ok fun e he => ?_
    rw [readEntry_lines (h.2 e he), if_pos (hfits e he)]
  rw [read_text_eq_mapM hhead h, hentries, List.flatMap]
  rfl

/-- One number that does not fit is enough for nothing to be read. -/
theorem read_text_of_not_fits (h : r.Separable (headOf script))
    (hlong : ∃ e ∈ r.entries, ¬e.NumberFits) :
    read script (r.text (headOf script)) = .error .notANumber := by
  have hentries : r.entries.mapM (fun e => readEntry script (e.lines (headOf script))) =
      .error .notANumber := by
    refine mapM_eq_error (fun e he => ?_) ?_
    · rw [readEntry_lines (h.2 e he)]
      split
      · exact .inl ⟨_, rfl⟩
      · exact .inr rfl
    · obtain ⟨e, he, hnot⟩ := hlong
      exact ⟨e, he, by rw [readEntry_lines (h.2 e he), if_neg hnot]⟩
  rw [read_text_eq_mapM hhead h, hentries]
  rfl

end

theorem readBytes_bytes (script : Script) (r : Report) :
    readBytes script (r.bytes script) = read script (r.text (headOf script)) := by
  have hutf8 : String.fromUTF8? (r.bytes script) = some (String.ofList (r.text (headOf script))) :=
    dif_pos (String.ofList (r.text (headOf script))).isValidUTF8
  rw [readBytes, hutf8]
  simp only [String.toList_ofList]

/-! ## What a report says -/

/-- The error that an information line reports, described by what stands behind the phrase where
it stands first. -/
def errorIn? (info : List Char) : Option Trigger :=
  (info.tails.find? fun tail => errorPhrase <+: tail).map fun tail =>
    { phrases := ["(error):"]
      category := .syntaxError
      severity := .low
      description := String.ofList (tail.drop "(error): ".length)
      recommendation := Wording.mendSyntax }

/-- What an information line speaks of, in the order in which it is reported. -/
def spokenOf (info : List Char) : List Trigger :=
  (errorIn? info).toList
    ++ (if "SC2086 (info): Double quote to prevent globbing and word splitting.".toList <:+: info
      then [unquotedVariable] else [])
    ++ (if "SC2060 (warning): Quote parameters to tr to prevent glob expansion.".toList <:+: info ∨
        "SC2053 (warning): Quote the right-hand side of = in [[ ]] to prevent glob matching.".toList
          <:+: info
      then [globExpansion] else [])
    ++ (if "SC2046".toList <:+: info then [unquotedSubstitution] else [])

theorem tails_find?_prefix (needle s : List Char) :
    s.tails.find? (fun tail => needle <+: tail) = (Text.find? needle s).map (s.drop ·) := by
  induction s with
  | nil => cases needle <;> simp [Text.find?]
  | cons c s ih =>
    have hstarts : decide (needle <+: c :: s) = needle.isPrefixOf (c :: s) := by
      rw [Bool.eq_iff_iff, decide_eq_true_iff, List.isPrefixOf_iff_prefix]
    rw [List.tails, List.find?_cons, Text.find?, hstarts]
    cases needle.isPrefixOf (c :: s) with
    | true => rfl
    | false => simp [ih, Option.map_map, Function.comp_def]

theorem syntaxError?_eq (info : List Char) : syntaxError? info = errorIn? info := by
  rw [syntaxError?, errorIn?, tails_find?_prefix, Option.map_map]
  refine congrArg (Option.map · _) (funext fun i => ?_)
  simp only [Function.comp_apply, List.drop_drop]
  rfl

/-- A trouble is taken exactly if the line speaks of it. -/
theorem filter_phrases {info : List Char} (t : Trigger) {spoken : Prop} [Decidable spoken]
    (h : (∃ phrase ∈ t.phrases, phrase.toList <:+: info) ↔ spoken) :
    [t].filter (fun t => t.phrases.any fun phrase => Text.contains info phrase.toList) =
      if spoken then [t] else [] := by
  have htaken :
      (t.phrases.any fun phrase => Text.contains info phrase.toList) = true ↔ spoken := by
    simp only [List.any_eq_true, Text.contains_iff_infix, h]
  rw [List.filter_singleton, Bool.cond_eq_ite]
  exact if_congr htaken rfl rfl

theorem triggers_eq (info : List Char) : triggers info = spokenOf info := by
  rw [triggers, spokenOf, syntaxError?_eq, ← filter_phrases unquotedVariable,
    ← filter_phrases globExpansion, ← filter_phrases unquotedSubstitution,
    List.append_assoc, List.append_assoc, ← List.filter_append, ← List.filter_append]
  · rfl
  · simp only [unquotedSubstitution, List.mem_singleton, exists_eq_left]
  · simp only [globExpansion, List.mem_cons, List.not_mem_nil, or_false, exists_eq_or_imp,
      exists_eq_left]
  · simp only [unquotedVariable, List.mem_singleton, exists_eq_left]

/-- The findings of an entry: those of its information lines, up to the error that ends them. -/
def Entry.said (script : Script) (e : Entry) : List Finding :=
  (e.infos.takeWhile fun info => !decide (lastError <:+: info)).flatMap fun info =>
    (spokenOf info).map (placed script e.number info)

theorem Entry.findings_eq_said (script : Script) (e : Entry) :
    e.findings script = e.said script := by
  have hends : (fun info => !Text.contains info lastError) =
      fun info => !decide (lastError <:+: info) := by
    refine funext fun info => congrArg (! ·) ?_
    rw [Bool.eq_iff_iff, Text.contains_iff_infix, decide_eq_true_iff]
  rw [findings, said, hends]
  refine congrArg (List.flatMap · _) (funext fun info => ?_)
  rw [infoFindings, triggers_eq]

/-- Reading the bytes of a report gives what its entries say, in their order, each entry for
itself, if all numbers have few enough digits. One that has more is not read, and nothing is
returned. -/
theorem readBytes_report {script : Script}
    (hpath : ∀ path, script.path = some path → Text.OneLine path.toList) {r : Report}
    (h : r.Separable (headOf script)) :
    ((∀ e ∈ r.entries, e.NumberFits) →
        readBytes script (r.bytes script) = .ok (r.entries.flatMap (Entry.said script))) ∧
      ((∃ e ∈ r.entries, ¬e.NumberFits) →
        readBytes script (r.bytes script) = .error .notANumber) := by
  have hhead := headOf_oneLine hpath
  rw [readBytes_bytes]
  refine ⟨fun hfits => ?_, read_text_of_not_fits hhead h⟩
  rw [read_text hhead h hfits]
  exact congrArg (fun said => Except.ok (r.entries.flatMap said))
    (funext (Entry.findings_eq_said script))

/-- A script whose path looks like a part of a head. -/
def misleading : Script where
  path := some "line 7: a.sh"
  text := "echo $x\n"
  rows := ["echo $x\n"]

/-- A report with an entry that speaks of two troubles in one line and has another line behind the
error that ends it, and with an entry that says nothing. -/
def wordyReport : Report where
  opened := true
  entries :=
    [{ number := 12
       source := []
       infos :=
        ["  SC2046 (error): Quote this.".toList, [],
          "^-- SC1072 (error):  Fix any mentioned problems and try again.".toList,
          "SC2046".toList] },
      { number := 1, source := "echo $x".toList, infos := [[]] }]
  links := some ":\nIn line 7: a.sh line 1:\n\nSC2046".toList

theorem readBytes_report_wordy :
    wordyReport.Separable (headOf misleading) ∧
      ∃ found, readBytes misleading (wordyReport.bytes misleading) = .ok found ∧
        found.map (fun f => (f.category, f.line, f.column)) =
          [(.syntaxError, 12, some 3), (.unquotedCommandSubstitution, 12, some 3)] := by
  have hpath : ∀ path, misleading.path = some path → Text.OneLine path.toList := by
    intro path hpath
    cases hpath
    decide +kernel
  have hseparable : wordyReport.Separable (headOf misleading) := by decide +kernel
  have hfits : ∀ e ∈ wordyReport.entries, e.NumberFits := by decide +kernel
  exact ⟨hseparable, _, (readBytes_report hpath hseparable).1 hfits, by decide +kernel⟩

/-- A report that says nothing about the line of a number. -/
def silentReport (number : Nat) : Report where
  entries := [{ number := number, source := [], infos := [] }]

theorem lt_length_toDigits_pow {k : Nat} (hk : 0 < k) :
    k < (Nat.toDigits 10 (Nat.pow 10 k)).length := by
  refine Nat.lt_of_not_le fun hle => ?_
  exact Nat.lt_irrefl _ ((Nat.length_toDigits_le_iff (by decide) hk).1 hle)

theorem silentReport_unread (script : Script) (hhead : Text.OneLine (headOf script)) {k : Nat}
    (hk : 0 < k) (hlong : Text.maxDigits ≤ k) :
    (silentReport (Nat.pow 10 k)).Separable (headOf script) ∧
      readBytes script ((silentReport (Nat.pow 10 k)).bytes script) = .error .notANumber := by
  have hseparable : (silentReport (Nat.pow 10 k)).Separable (headOf script) := by
    refine ⟨fun hopened => absurd hopened Bool.false_ne_true,
      List.forall_mem_singleton.2 ⟨?_, ?_⟩⟩
    · exact Nat.pow_pos (by decide)
    · exact List.forall_mem_singleton.2 (Entry.inner_nil (headOf_head? script))
  refine ⟨hseparable, ?_⟩
  rw [readBytes_bytes]
  refine read_text_of_not_fits hhead hseparable ⟨_, List.mem_singleton_self _, fun hfits => ?_⟩
  exact absurd hfits (Nat.not_le_of_lt (Nat.lt_of_le_of_lt hlong (lt_length_toDigits_pow hk)))

/-- The report says nothing, and yet the reading of it stops if the number is too long. -/
theorem distant_line_unread :
    (silentReport (Nat.pow 10 Text.maxDigits)).Separable (headOf (Script.ofText "echo hi")) ∧
      (silentReport (Nat.pow 10 Text.maxDigits)).entries.flatMap
        (Entry.said (Script.ofText "echo hi")) = [] ∧
      readBytes (Script.ofText "echo hi")
        ((silentReport (Nat.pow 10 Text.maxDigits)).bytes (Script.ofText "echo hi")) =
          .error .notANumber := by
  obtain ⟨hseparable, hstops⟩ := silentReport_unread (Script.ofText "echo hi") (by decide +kernel)
    (by decide : 0 < Text.maxDigits) (Nat.le_refl _)
  exact ⟨hseparable, rfl, hstops⟩

end Lint

end ShellAudit
