-- SUMMARY: A reader of JSON texts, and that it reads every value that is written.
import Mathlib.Data.List.Forall2
import ShellAudit.Json

/-!
# Reading JSON

A text is read in two steps. First it is cut into tokens: marks, texts between quotes, and words
such as constants and numerals. Then the tokens are put together from the last to the first, on a
stack of values and of marks that no value has taken up. An opening bracket takes up everything
before the bracket that closes it.

What is written for a value is read as its document: texts and whole numbers as what they are, and
all other words as they stand in the text.
-/

namespace ShellAudit

/-- What a JSON text tells. A word is a constant or the numeral of a number with a fraction. -/
inductive Document where
  | word (s : String)
  | number (n : Int)
  | text (s : String)
  | list (items : List Document)
  | object (members : List (String × Document))
deriving Inhabited

namespace Json

mutual

/-- What the text of a value tells. -/
def document : Json → Document
  | null => .word "null"
  | bool b => .word (if b then "true" else "false")
  | number n => .number n
  | real x => .word x.text
  | text s => .text s
  | list items => .list (documents items)
  | object members => .object (memberDocuments members)

def documents : List Json → List Document
  | [] => []
  | item :: items => document item :: documents items

def memberDocuments : List (String × Json) → List (String × Document)
  | [] => []
  | (key, item) :: members => (key, document item) :: memberDocuments members

end

theorem documents_eq_map (vs : List Json) : documents vs = vs.map document := by
  induction vs with
  | nil => rfl
  | cons v vs ih => rw [documents, ih, List.map_cons]

theorem memberDocuments_eq_map (ms : List (String × Json)) :
    memberDocuments ms = ms.map fun m => (m.1, m.2.document) := by
  induction ms with
  | nil => rfl
  | cons m ms ih => rw [memberDocuments, ih, List.map_cons]

/-! ## Tokens -/

/-- The characters that lists and objects are made with. -/
inductive Mark where
  | openList
  | closeList
  | openObject
  | closeObject
  | comma
  | colon
deriving DecidableEq

namespace Mark

def all : List Mark := [openList, closeList, openObject, closeObject, comma, colon]

def char : Mark → Char
  | openList => '['
  | closeList => ']'
  | openObject => '\x7b'
  | closeObject => '\x7d'
  | comma => ','
  | colon => ':'

/-- The mark that a character is. -/
def ofChar? (c : Char) : Option Mark := all.find? (·.char == c)

theorem ofChar?_char (m : Mark) : ofChar? m.char = some m := by cases m <;> decide

end Mark

/-- What a text is cut into. A text between quotes is kept as it is written. -/
inductive Token where
  | mark (m : Mark)
  | text (written : List Char)
  | word (written : List Char)
  | unclosed

/-- What has been read when the next character comes: a part of a word, which is empty between
two tokens, or a part of a text between quotes. -/
inductive Mode where
  | outside (word : List Char)
  | inside (written : List Char)

def isSpace (c : Char) : Bool := c = ' ' || c = '\n' || c = '\t' || c = '\r'

/-- The token of a word that is over, if there is one. -/
def finished (word : List Char) : List Token := if word = [] then [] else [.word word]

/-- Cuts a text into tokens. -/
def scan : Mode → List Char → List Token
  | .outside word, [] => finished word
  | .outside word, c :: cs =>
    if isSpace c then finished word ++ scan (.outside []) cs
    else if c = '"' then finished word ++ scan (.inside []) cs
    else
      match Mark.ofChar? c with
      | some m => finished word ++ .mark m :: scan (.outside []) cs
      | none => scan (.outside (word ++ [c])) cs
  | .inside _, [] => [.unclosed]
  | .inside written, '\\' :: c :: cs => scan (.inside (written ++ ['\\', c])) cs
  | .inside written, c :: cs =>
    if c = '"' then .text written :: scan (.outside []) cs
    else scan (.inside (written ++ [c])) cs

/-! ## Texts between quotes -/

/-- The value of a digit in base sixteen. -/
def hexDigit? (c : Char) : Option Nat :=
  if '0' ≤ c ∧ c ≤ '9' then some (c.toNat - '0'.toNat)
  else if 'a' ≤ c ∧ c ≤ 'f' then some (c.toNat - 'a'.toNat + 10)
  else if 'A' ≤ c ∧ c ≤ 'F' then some (c.toNat - 'A'.toNat + 10)
  else none

/-- The unit that four digits in base sixteen stand for. -/
def unit? (a b c d : Char) : Option Nat := do
  return 0x1000 * (← hexDigit? a) + 0x100 * (← hexDigit? b) + 0x10 * (← hexDigit? c)
    + (← hexDigit? d)

/-- The character that stands for itself or for another one behind a backslash. -/
def escape? (c : Char) : Option Nat :=
  if c = '"' ∨ c = '\\' ∨ c = '/' then some c.toNat
  else if c = 'n' then some 0x0A
  else if c = 'r' then some 0x0D
  else if c = 't' then some 0x09
  else if c = 'b' then some 0x08
  else if c = 'f' then some 0x0C
  else none

/-- The UTF-16 units of a character. -/
def utf16 (c : Char) : List Nat :=
  if c.toNat < 0x10000 then [c.toNat]
  else [0xD800 + (c.toNat - 0x10000) / 0x400, 0xDC00 + (c.toNat - 0x10000) % 0x400]

/-- The UTF-16 units that a text between quotes stands for. -/
def units? : List Char → Option (List Nat)
  | [] => some []
  | '\\' :: 'u' :: a :: b :: c :: d :: cs => do return (← unit? a b c d) :: (← units? cs)
  | '\\' :: c :: cs => do return (← escape? c) :: (← units? cs)
  | c :: cs => do return utf16 c ++ (← units? cs)

/-- The characters of UTF-16 units. Two units in a row may be one character. -/
def characters? : List Nat → Option (List Char)
  | [] => some []
  | u :: us =>
    if 0xD800 ≤ u ∧ u < 0xE000 then
      match us with
      | [] => none
      | v :: us =>
        if u < 0xDC00 ∧ 0xDC00 ≤ v ∧ v < 0xE000 then do
          return Char.ofNat (0x10000 + 0x400 * (u - 0xD800) + (v - 0xDC00)) :: (← characters? us)
        else none
    else do return Char.ofNat u :: (← characters? us)

/-- The text that stands between quotes. -/
def unescape? (written : List Char) : Option String := do
  return String.ofList (← characters? (← units? written))

/-! ## Values -/

/-- The number that digits stand for. -/
def natural? (s : List Char) : Option Nat :=
  if s ≠ [] ∧ s.all Char.isDigit then some (Nat.ofDigitChars 10 s 0) else none

/-- The whole number that a word stands for. -/
def whole? : List Char → Option Int
  | '-' :: s => (natural? s).map fun n : Nat => -(n : Int)
  | s => (natural? s).map fun n : Nat => (n : Int)

/-- What a word tells. -/
def wordDocument (s : List Char) : Document :=
  match whole? s with
  | some n => .number n
  | none => .word (String.ofList s)

/-- A value that has been read, or a mark that no value has taken up. -/
inductive Cell where
  | value (d : Document)
  | mark (m : Mark)

/-- The items before the end of a list, and what stands behind it. -/
def items? : List Cell → Option (List Document × List Cell)
  | .value d :: .mark .closeList :: rest => some ([d], rest)
  | .value d :: .mark .comma :: rest => (items? rest).map fun r => (d :: r.1, r.2)
  | _ => none

/-- The members before the end of an object, and what stands behind it. -/
def members? : List Cell → Option (List (String × Document) × List Cell)
  | .value (.text key) :: .mark .colon :: .value d :: .mark .closeObject :: rest =>
    some ([(key, d)], rest)
  | .value (.text key) :: .mark .colon :: .value d :: .mark .comma :: rest =>
    (members? rest).map fun r => ((key, d) :: r.1, r.2)
  | _ => none

/-- Puts a token before what has been read. -/
def push : Token → List Cell → Option (List Cell)
  | .unclosed, _ => none
  | .word written, cells => some (.value (wordDocument written) :: cells)
  | .text written, cells => (unescape? written).map fun s => .value (.text s) :: cells
  | .mark .openList, .mark .closeList :: cells => some (.value (.list []) :: cells)
  | .mark .openList, cells => (items? cells).map fun r => .value (.list r.1) :: r.2
  | .mark .openObject, .mark .closeObject :: cells => some (.value (.object []) :: cells)
  | .mark .openObject, cells => (members? cells).map fun r => .value (.object r.1) :: r.2
  | .mark m, cells => some (.mark m :: cells)

/-- Reads tokens, the last first. -/
def stack? : List Token → Option (List Cell)
  | [] => some []
  | t :: ts => (stack? ts).bind (push t)

/-- The value in a stack that holds nothing else. -/
def single? : List Cell → Option Document
  | [.value d] => some d
  | _ => none

/-- Reads a text. -/
def read? (s : String) : Option Document := (stack? (scan (.outside []) s.toList)).bind single?

/-! ## Units -/

theorem hex_succ {width : Nat} (hwidth : 1 ≤ width) (n : Nat) :
    Text.hex (width + 1) n = Text.hex width (n / 16) ++ [(n % 16).digitChar] := by
  simp only [Text.hex]
  by_cases hn : 16 ≤ n
  · rw [Nat.toDigits_of_base_le (by decide) hn, List.length_append, List.length_singleton,
      Nat.add_sub_add_right, List.append_assoc]
  · obtain ⟨k, rfl⟩ : ∃ k, width = k + 1 := ⟨width - 1, by omega⟩
    rw [Nat.toDigits_of_lt_base (by omega), Nat.div_eq_of_lt (by omega),
      Nat.mod_eq_of_lt (by omega), Nat.toDigits_zero, List.length_singleton,
      List.length_singleton, Nat.add_sub_cancel, Nat.add_sub_cancel, List.replicate_succ']

/-- A unit is written with four digits. -/
theorem unit_eq {n : Nat} (h : n < 0x10000) :
    unit n = ['\\', 'u', (n / 16 / 16 / 16).digitChar, (n / 16 / 16 % 16).digitChar,
      (n / 16 % 16).digitChar, (n % 16).digitChar] := by
  have hone : Text.hex 1 (n / 16 / 16 / 16) = [(n / 16 / 16 / 16).digitChar] := by
    rw [Text.hex, Nat.toDigits_of_lt_base (by omega)]
    rfl
  rw [unit, hex_succ (by decide), hex_succ (by decide), hex_succ (by decide), hone]
  rfl

theorem hexDigit?_digitChar {n : Nat} (h : n < 16) : hexDigit? n.digitChar = some n :=
  (by decide : ∀ n < 16, hexDigit? n.digitChar = some n) n h

theorem units?_unit {n : Nat} (h : n < 0x10000) (rest : List Char) :
    units? (unit n ++ rest) = (units? rest).map (n :: ·) := by
  have hunit : unit? (n / 16 / 16 / 16).digitChar (n / 16 / 16 % 16).digitChar
      (n / 16 % 16).digitChar (n % 16).digitChar = some n := by
    rw [unit?, hexDigit?_digitChar (by omega), hexDigit?_digitChar (by omega),
      hexDigit?_digitChar (by omega), hexDigit?_digitChar (by omega)]
    show some _ = some n
    congr 1
    omega
  rw [unit_eq h]
  simp only [List.cons_append, List.nil_append, units?, hunit]
  cases units? rest <;> rfl

theorem toNat_valid (c : Char) : c.toNat < 0xD800 ∨ 0xDFFF < c.toNat ∧ c.toNat < 0x110000 := c.valid

theorem utf16_lt {c : Char} {u : Nat} (h : u ∈ utf16 c) : u < 0x10000 := by
  have := toNat_valid c
  unfold utf16 at h
  split at h
  · rw [List.mem_singleton.1 h]
    assumption
  · rcases List.mem_cons.1 h with rfl | h
    · omega
    · rw [List.mem_singleton.1 h]
      omega

theorem units?_flatMap_unit {us : List Nat} (h : ∀ u ∈ us, u < 0x10000) (rest : List Char) :
    units? (us.flatMap unit ++ rest) = (units? rest).map (us ++ ·) := by
  induction us with
  | nil => simp
  | cons u us ih =>
    rw [List.flatMap_cons, List.append_assoc, units?_unit (h u List.mem_cons_self),
      ih fun v hv => h v (List.mem_cons_of_mem u hv), Option.map_map]
    rfl

/-! ## Characters -/

/-- The ways in which a character is written between quotes. -/
inductive Written (c : Char) : List Char → Prop
  | itself : c ≠ '"' → c ≠ '\\' → Written c [c]
  | short {d : Char} : d ≠ 'u' → escape? d = some c.toNat → c.toNat < 0x10000 → Written c ['\\', d]
  | units : Written c ((utf16 c).flatMap unit)

theorem written_escaped (c : Char) : Written c (escaped c) := by
  unfold escaped
  split
  · rename_i hc
    rcases hc with rfl | rfl
    · exact .short (by decide) rfl (by decide)
    · exact .short (by decide) rfl (by decide)
  split
  · subst c
    exact .short (by decide) rfl (by decide)
  split
  · subst c
    exact .short (by decide) rfl (by decide)
  split
  · subst c
    exact .short (by decide) rfl (by decide)
  split
  · rename_i hc
    exact .short (by decide) (by rw [hc]; rfl) (by omega)
  split
  · rename_i hc
    exact .short (by decide) (by rw [hc]; rfl) (by omega)
  split
  · rename_i hspecial _ _ _ _ _ _
    exact .itself (fun hc => hspecial (.inl hc)) fun hc => hspecial (.inr hc)
  split
  · rename_i hc
    have hunits := @Written.units c
    rwa [utf16, if_pos hc, List.flatMap_singleton] at hunits
  · rename_i hc
    have hunits := @Written.units c
    rwa [utf16, if_neg hc, List.flatMap_cons, List.flatMap_singleton] at hunits

/-- What is written for a character stands for its units. -/
theorem Written.units?_append {c : Char} {s : List Char} (h : Written c s) (rest : List Char) :
    units? (s ++ rest) = (units? rest).map (utf16 c ++ ·) := by
  cases h with
  | itself hquote hslash =>
    rw [List.singleton_append, units?]
    · cases units? rest <;> rfl
    · exact fun _ _ _ _ _ heq => absurd heq hslash
    · exact fun _ _ heq => absurd heq hslash
  | short hu hescape hsmall =>
    rw [List.cons_append, List.singleton_append, units?, hescape, utf16, if_pos hsmall]
    · cases units? rest <;> rfl
    · exact fun _ _ _ _ _ heq => absurd heq hu
  | units => exact units?_flatMap_unit (fun _ => utf16_lt) rest

/-- The units of a character are read as this character. -/
theorem characters?_utf16 (c : Char) (rest : List Nat) :
    characters? (utf16 c ++ rest) = (characters? rest).map (c :: ·) := by
  have hvalid := toNat_valid c
  unfold utf16
  split
  · rw [List.singleton_append, characters?.eq_def]
    simp only
    rw [if_neg (by omega), Char.ofNat_toNat]
    cases characters? rest <;> rfl
  · have hback : 0x10000 + 0x400 * (0xD800 + (c.toNat - 0x10000) / 0x400 - 0xD800)
        + (0xDC00 + (c.toNat - 0x10000) % 0x400 - 0xDC00) = c.toNat := by omega
    rw [List.cons_append, List.singleton_append, characters?, if_pos (by omega), if_pos (by omega),
      hback, Char.ofNat_toNat]
    cases characters? rest <;> rfl

/-- A text is read back from what is written between its quotes. -/
theorem unescape?_escaped (s : String) : unescape? (s.toList.flatMap escaped) = some s := by
  have hunits (cs : List Char) : units? (cs.flatMap escaped) = some (cs.flatMap utf16) := by
    induction cs with
    | nil => rfl
    | cons c cs ih =>
      rw [List.flatMap_cons, (written_escaped c).units?_append, ih, List.flatMap_cons,
        Option.map_some]
  have hcharacters (cs : List Char) : characters? (cs.flatMap utf16) = some cs := by
    induction cs with
    | nil => rfl
    | cons c cs ih => rw [List.flatMap_cons, characters?_utf16, ih, Option.map_some]
  rw [unescape?, hunits]
  show (characters? _).bind _ = _
  rw [hcharacters]
  exact congrArg some String.ofList_toList

/-! ## Scanning -/

/-- What may follow a word: nothing, or a character that ends it. -/
def Closes : List Char → Prop
  | [] => True
  | c :: _ => isSpace c = true ∨ ∃ m : Mark, m.char = c

/-- The text is cut into the tokens, whatever follows that does not belong to its last word. -/
def Scans (s : List Char) (ts : List Token) : Prop :=
  ∀ rest, Closes rest → scan (.outside []) (s ++ rest) = ts ++ scan (.outside []) rest

/-- A character that may stand in a word. -/
def isPlain (c : Char) : Bool := !isSpace c && c ≠ '"' && (Mark.ofChar? c).isNone

theorem scan_plain {s : List Char} (h : ∀ c ∈ s, isPlain c = true) (word rest : List Char) :
    scan (.outside word) (s ++ rest) = scan (.outside (word ++ s)) rest := by
  induction s generalizing word with
  | nil => rw [List.nil_append, List.append_nil]
  | cons c cs ih =>
    have hc := h c List.mem_cons_self
    simp only [isPlain, Bool.and_eq_true, Bool.not_eq_true', decide_eq_true_eq,
      Option.isNone_iff_eq_none] at hc
    obtain ⟨⟨hspace, hquote⟩, hmark⟩ := hc
    have hnext : scan (.outside word) (c :: (cs ++ rest)) =
        scan (.outside (word ++ [c])) (cs ++ rest) := by
      rw [scan, if_neg (by simp [hspace]), if_neg hquote, hmark]
    rw [List.cons_append, hnext, ih fun d hd => h d (List.mem_cons_of_mem c hd), List.append_assoc,
      List.singleton_append]

theorem scan_space {c : Char} (h : isSpace c = true) (word rest : List Char) :
    scan (.outside word) (c :: rest) = finished word ++ scan (.outside []) rest := by
  rw [scan, if_pos h]

theorem scan_mark (m : Mark) (word rest : List Char) :
    scan (.outside word) (m.char :: rest) =
      finished word ++ .mark m :: scan (.outside []) rest := by
  have hspace : isSpace m.char = false := by cases m <;> decide
  have hquote : m.char ≠ '"' := by cases m <;> decide
  rw [scan, if_neg (by simp [hspace]), if_neg hquote, Mark.ofChar?_char]

theorem scan_finished (word : List Char) {rest : List Char} (h : Closes rest) :
    scan (.outside word) rest = finished word ++ scan (.outside []) rest := by
  cases rest with
  | nil => simp [scan, finished]
  | cons c cs =>
    rcases h with hspace | ⟨m, rfl⟩
    · rw [scan_space hspace, scan_space hspace]
      rfl
    · rw [scan_mark, scan_mark]
      rfl

theorem scans_word {s : List Char} (hne : s ≠ []) (h : ∀ c ∈ s, isPlain c = true) :
    Scans s [.word s] := by
  intro rest hrest
  rw [scan_plain h, List.nil_append, scan_finished s hrest, finished, if_neg hne]

theorem Scans.spaces {spaces s : List Char} {ts : List Token} (h : Scans s ts)
    (hspaces : ∀ c ∈ spaces, isSpace c = true) : Scans (spaces ++ s) ts := by
  intro rest hrest
  induction spaces with
  | nil => exact h rest hrest
  | cons c cs ih =>
    rw [List.cons_append, List.cons_append, scan_space (hspaces c List.mem_cons_self)]
    exact ih fun d hd => hspaces d (List.mem_cons_of_mem c hd)

theorem scan_inside {s : List Char} (h : ∀ c ∈ s, c ≠ '"' ∧ c ≠ '\\') (written rest : List Char) :
    scan (.inside written) (s ++ rest) = scan (.inside (written ++ s)) rest := by
  induction s generalizing written with
  | nil => rw [List.nil_append, List.append_nil]
  | cons c cs ih =>
    obtain ⟨hquote, hslash⟩ := h c List.mem_cons_self
    rw [List.cons_append, scan, if_neg hquote, ih fun d hd => h d (List.mem_cons_of_mem c hd),
      List.append_assoc, List.singleton_append]
    exact fun d ds heq => absurd heq hslash

theorem scan_backslash (c : Char) (written rest : List Char) :
    scan (.inside written) ('\\' :: c :: rest) = scan (.inside (written ++ ['\\', c])) rest := by
  rw [scan]

theorem scan_unit {n : Nat} (h : n < 0x10000) (written rest : List Char) :
    scan (.inside written) (unit n ++ rest) = scan (.inside (written ++ unit n)) rest := by
  have hdigit (m : Nat) : m.digitChar ≠ '"' ∧ m.digitChar ≠ '\\' :=
    ⟨Nat.digitChar_ne '"' (by decide), Nat.digitChar_ne '\\' (by decide)⟩
  rw [unit_eq h, List.cons_append, List.cons_append, scan_backslash, scan_inside,
    List.append_assoc]
  · rfl
  · simp [hdigit]

/-- No part of what is written for a character ends the text that it stands in. -/
theorem Written.scan_append {c : Char} {s : List Char} (h : Written c s)
    (written rest : List Char) :
    scan (.inside written) (s ++ rest) = scan (.inside (written ++ s)) rest := by
  have hunits {us : List Nat} (h : ∀ u ∈ us, u < 0x10000) (written : List Char) :
      scan (.inside written) (us.flatMap unit ++ rest) =
        scan (.inside (written ++ us.flatMap unit)) rest := by
    induction us generalizing written with
    | nil => simp
    | cons u us ih =>
      rw [List.flatMap_cons, List.append_assoc, scan_unit (h u List.mem_cons_self),
        ih fun v hv => h v (List.mem_cons_of_mem u hv), List.append_assoc]
  cases h with
  | itself hquote hslash => exact scan_inside (by simp [hquote, hslash]) written rest
  | @short d => exact scan_backslash d written rest
  | units => exact hunits (fun _ => utf16_lt) written

theorem scans_quoted (s : String) : Scans (quoted s).toList [.text (s.toList.flatMap escaped)] := by
  have hinside (cs written rest : List Char) :
      scan (.inside written) (cs.flatMap escaped ++ rest) =
        scan (.inside (written ++ cs.flatMap escaped)) rest := by
    induction cs generalizing written with
    | nil => simp
    | cons c cs ih =>
      rw [List.flatMap_cons, List.append_assoc, (written_escaped c).scan_append, ih,
        List.append_assoc]
  intro rest _
  have hopens (rest : List Char) : scan (.outside []) ('"' :: rest) = scan (.inside []) rest := rfl
  have hcloses (written : List Char) :
      scan (.inside written) ('"' :: rest) = .text written :: scan (.outside []) rest := by
    rw [scan, if_pos rfl]
    exact fun c cs heq => absurd heq (by decide)
  rw [quoted, String.toList_ofList, List.cons_append, List.cons_append, hopens, List.append_assoc,
    hinside, List.nil_append, List.singleton_append, hcloses]
  rfl

theorem Scans.mark {s : List Char} {ts : List Token} (h : Scans s ts) (m : Mark) :
    Scans (m.char :: s) (.mark m :: ts) := by
  intro rest hrest
  rw [List.cons_append, scan_mark, h rest hrest]
  rfl

/-- Tokens are joined where the second text starts with a character that ends words. -/
theorem Scans.append {s s' : List Char} {ts ts' : List Token} {c : Char} (h : Scans s ts)
    (h' : Scans (c :: s') ts') (hc : isSpace c = true ∨ ∃ m : Mark, m.char = c) :
    Scans (s ++ c :: s') (ts ++ ts') := by
  intro rest hrest
  have hcloses : Closes (c :: s' ++ rest) := hc
  rw [List.append_assoc, h _ hcloses, h' rest hrest, List.append_assoc]

/-! ## Words -/

/-- The characters of words. -/
def isLetter (c : Char) : Bool := c.isAlphanum || c = '.' || c = '+' || c = '-'

theorem isPlain_of_isLetter {c : Char} (h : isLetter c = true) : isPlain c = true := by
  have hspace : isSpace c = false := by
    refine Bool.eq_false_iff.2 fun hspace => ?_
    simp only [isSpace, Bool.or_eq_true, decide_eq_true_eq] at hspace
    rcases hspace with ((rfl | rfl) | rfl) | rfl <;> exact absurd h (by decide)
  have hquote : c ≠ '"' := by
    rintro rfl
    exact absurd h (by decide)
  have hmark : Mark.ofChar? c = none := by
    refine Option.eq_none_iff_forall_ne_some.2 fun m hm => ?_
    obtain rfl : m.char = c := by simpa using List.find?_some hm
    cases m <;> exact absurd h (by decide)
  simp [isPlain, hspace, hquote, hmark]

theorem isLetter_of_isDigit {c : Char} (h : c.isDigit = true) : isLetter c = true := by
  simp [isLetter, Char.isAlphanum, h]

/-- A word that is read as a document. -/
structure Spells (s : List Char) (d : Document) : Prop where
  nonempty : s ≠ []
  letters : ∀ c ∈ s, isLetter c = true
  read : wordDocument s = d

theorem isDigit_of_mem_toDigits {n : Nat} {c : Char} (h : c ∈ Nat.toDigits 10 n) :
    c.isDigit = true :=
  Nat.isDigit_of_mem_toDigits (by decide) (by decide) h

theorem natural?_toDigits (n : Nat) : natural? (Nat.toDigits 10 n) = some n := by
  have hdigits : (Nat.toDigits 10 n).all Char.isDigit = true :=
    List.all_eq_true.2 fun _ => isDigit_of_mem_toDigits
  rw [natural?, if_pos ⟨Nat.toDigits_ne_nil, hdigits⟩, Nat.ofDigitChars_ten_toDigits]

theorem toList_toString (n : Int) :
    (toString n).toList =
      if 0 ≤ n then Nat.toDigits 10 n.toNat else '-' :: Nat.toDigits 10 (-n).toNat := by
  rw [Int.toString_eq_repr, Int.repr_eq_if]
  split
  · rw [Nat.repr_eq_ofList_toDigits, String.toList_ofList]
  · rw [String.toList_append, Nat.repr_eq_ofList_toDigits, String.toList_ofList,
      String.toList_ofList]
    rfl

theorem whole?_toString (n : Int) : whole? (toString n).toList = some n := by
  rw [toList_toString]
  split
  · rename_i hn
    unfold whole?
    split
    · -- Digits do not start with a minus sign.
      rename_i ds hds
      exact absurd (isDigit_of_mem_toDigits (hds ▸ List.mem_cons_self)) (by decide)
    · rw [natural?_toDigits, Option.map_some, Int.toNat_of_nonneg hn]
  · rw [whole?, natural?_toDigits, Option.map_some, Int.toNat_of_nonneg (by omega), Int.neg_neg]

theorem spells_number (n : Int) : Spells (toString n).toList (.number n) := by
  have hdigits (m : Nat) : ∀ c ∈ Nat.toDigits 10 m, isLetter c = true :=
    fun c hc => isLetter_of_isDigit (isDigit_of_mem_toDigits hc)
  refine ⟨?_, ?_, by rw [wordDocument, whole?_toString]⟩
  · rw [toList_toString]
    split
    · exact Nat.toDigits_ne_nil
    · exact List.cons_ne_nil _ _
  · rw [toList_toString]
    split
    · exact hdigits _
    · exact List.forall_mem_cons.2 ⟨rfl, hdigits _⟩

/-- A word with a letter that no whole number has. -/
structure IsWord (s : List Char) : Prop where
  letters : ∀ c ∈ s, isLetter c = true
  distinct : ∃ c ∈ s, c.isDigit = false ∧ c ≠ '-'

/-- Such a word is read as it stands. -/
theorem IsWord.spells {s : List Char} (h : IsWord s) : Spells s (.word (String.ofList s)) := by
  obtain ⟨c, hc, hdigit, hminus⟩ := h.distinct
  have hnatural {ds : List Char} (hmem : c ∈ ds) : natural? ds = none := by
    refine if_neg fun hds => ?_
    exact absurd (List.all_eq_true.1 hds.2 c hmem) (by simp [hdigit])
  have hwhole : whole? s = none := by
    unfold whole?
    split
    · rw [hnatural ((List.mem_cons.1 hc).resolve_left hminus), Option.map_none]
    · rw [hnatural hc, Option.map_none]
  exact ⟨List.ne_nil_of_mem hc, h.letters, by rw [wordDocument, hwhole]⟩

theorem isWord_of_checks {s : List Char} (hletters : s.all isLetter = true)
    (hdistinct : s.any (fun c => !c.isDigit && c != '-') = true) : IsWord s := by
  refine ⟨List.all_eq_true.1 hletters, ?_⟩
  simpa using hdistinct

/-! ## Numerals -/

theorem digits_numeralOf {value : Nat} {grid : Int} {c : Char}
    (h : c ∈ (Magnitude.numeralOf value grid).digits) : c.isDigit = true := by
  have hmem := (List.dropWhile_sublist _).subset (List.mem_reverse.1 h)
  exact isDigit_of_mem_toDigits (List.mem_reverse.1 hmem)

theorem digits_shortest {x : Magnitude} {c : Char} (h : c ∈ x.shortest.digits) :
    c.isDigit = true := by
  rw [Magnitude.shortest] at h
  generalize hfound : List.findSome? _ _ = found at h
  cases found with
  | none => exact digits_numeralOf h
  | some numeral =>
    obtain ⟨grid, _, hgrid⟩ := List.exists_of_findSome?_eq_some hfound
    obtain ⟨value, _, rfl⟩ := Option.map_eq_some_iff.1 hgrid
    exact digits_numeralOf h

/-- A numeral has a point or an exponent, so it is not taken for a whole number. -/
theorem isWord_numeral {n : Numeral} (h : ∀ c ∈ n.digits, c.isDigit = true) : IsWord n.text := by
  have hzeros (k : Nat) : ∀ c ∈ List.replicate k '0', isLetter c = true := by
    intro c hc
    rw [(List.mem_replicate.1 hc).2]
    rfl
  have hdigits {ds : List Char} (hds : ds.Sublist n.digits) : ∀ c ∈ ds, isLetter c = true :=
    fun c hc => isLetter_of_isDigit (h c (hds.subset hc))
  have hpositional : ∀ c ∈ n.positional, isLetter c = true := by
    unfold Numeral.positional
    refine List.forall_mem_append.2 ⟨?_, List.forall_mem_cons.2 ⟨rfl, ?_⟩⟩
    · split
      · exact hzeros 1
      · exact List.forall_mem_append.2 ⟨hdigits (List.take_sublist _ _), hzeros _⟩
    · split
      · exact List.forall_mem_append.2 ⟨hzeros _, hdigits (List.drop_sublist _ _)⟩
      · exact hzeros 1
  have hscientific : ∀ c ∈ n.scientific, isLetter c = true := by
    have hfraction :
        ∀ c ∈ if n.digits.length ≤ 1 then [] else '.' :: n.digits.drop 1, isLetter c = true := by
      split
      · exact fun c hc => absurd hc List.not_mem_nil
      · exact List.forall_mem_cons.2 ⟨rfl, hdigits (List.drop_sublist _ _)⟩
    have hsign : isLetter (if n.point - 1 < 0 then '-' else '+') = true := by
      split <;> rfl
    unfold Numeral.scientific
    refine List.forall_mem_append.2 ⟨List.forall_mem_append.2 ⟨List.forall_mem_append.2
      ⟨hdigits (List.take_sublist _ _), hfraction⟩, ?_⟩, ?_⟩
    · exact List.forall_mem_cons.2 ⟨rfl, List.forall_mem_cons.2 ⟨hsign, hzeros _⟩⟩
    · exact fun c hc => isLetter_of_isDigit (isDigit_of_mem_toDigits hc)
  unfold Numeral.text
  split
  · exact ⟨hpositional, '.', by simp [Numeral.positional], rfl, by decide⟩
  · exact ⟨hscientific, 'e', by simp [Numeral.scientific], rfl, by decide⟩

theorem isWord_real (x : Binary) : IsWord x.text.toList := by
  cases x with
  | finite negative x =>
    have hmagnitude : IsWord (if x.m = 0 then "0.0".toList else x.shortest.text) := by
      split
      · exact isWord_of_checks (by decide) (by decide)
      · exact isWord_numeral fun _ => digits_shortest
    obtain ⟨hletters, c, hc, hdistinct⟩ := hmagnitude
    unfold Binary.text
    simp only
    rw [String.toList_ofList]
    split
    · exact ⟨List.forall_mem_cons.2 ⟨rfl, hletters⟩, c, List.mem_cons_of_mem _ hc, hdistinct⟩
    · exact ⟨hletters, c, hc, hdistinct⟩
  | infinite negative =>
    cases negative with
    | false => exact isWord_of_checks (by decide) (by decide)
    | true => exact isWord_of_checks (by decide) (by decide)
  | undefined => exact isWord_of_checks (by decide) (by decide)

/-! ## Stacks -/

/-- The text is read as the cells, whatever stands behind it. -/
def Reads (s : List Char) (cells : List Cell) : Prop :=
  ∃ ts, Scans s ts ∧
    ∀ rest behind, stack? rest = some behind → stack? (ts ++ rest) = some (cells ++ behind)

theorem stack?_cons {t : Token} {ts : List Token} {cells : List Cell} (h : stack? ts = some cells) :
    stack? (t :: ts) = push t cells := by
  rw [stack?, h, Option.bind_some]

theorem reads_nil : Reads [] [] := ⟨[], fun _ _ => rfl, fun _ _ h => h⟩

theorem Spells.reads {s : List Char} {d : Document} (h : Spells s d) : Reads s [.value d] := by
  refine ⟨[.word s], scans_word h.nonempty fun c hc => isPlain_of_isLetter (h.letters c hc), ?_⟩
  intro rest behind hrest
  rw [List.singleton_append, stack?_cons hrest, push, h.read]
  rfl

theorem reads_quoted (s : String) : Reads (quoted s).toList [.value (.text s)] := by
  refine ⟨_, scans_quoted s, fun rest behind hrest => ?_⟩
  rw [List.singleton_append, stack?_cons hrest, push, unescape?_escaped]
  rfl

namespace Reads

variable {s s' : List Char} {cells cells' : List Cell}

theorem spaces {spaces : List Char} (h : Reads s cells) (hspaces : ∀ c ∈ spaces, isSpace c = true) :
    Reads (spaces ++ s) cells := by
  obtain ⟨ts, hscans, hstack⟩ := h
  exact ⟨ts, hscans.spaces hspaces, hstack⟩

theorem newline (h : Reads s cells) : Reads ('\n' :: s) cells :=
  h.spaces (List.forall_mem_singleton.2 rfl)

theorem append {c : Char} (h : Reads s cells) (h' : Reads (c :: s') cells')
    (hc : isSpace c = true ∨ ∃ m : Mark, m.char = c) : Reads (s ++ c :: s') (cells ++ cells') := by
  obtain ⟨ts, hscans, hstack⟩ := h
  obtain ⟨ts', hscans', hstack'⟩ := h'
  refine ⟨ts ++ ts', hscans.append hscans' hc, fun rest behind hrest => ?_⟩
  rw [List.append_assoc, hstack _ _ (hstack' rest behind hrest), List.append_assoc]

/-- A mark before a text changes the cells as its token does. -/
theorem mark {m : Mark} (h : Reads s cells)
    (hpush : ∀ behind, push (.mark m) (cells ++ behind) = some (cells' ++ behind)) :
    Reads (m.char :: s) cells' := by
  obtain ⟨ts, hscans, hstack⟩ := h
  refine ⟨.mark m :: ts, hscans.mark m, fun rest behind hrest => ?_⟩
  rw [List.cons_append, stack?_cons (hstack rest behind hrest), hpush]

end Reads

/-! ## Brackets -/

/-- How entries between two brackets are read: the brackets, the cells of one entry, how entries
are taken from a stack, and the document that they make. -/
structure Brackets (α : Type) where
  opening : Mark
  closing : Mark
  cells : α → List Cell
  collect? : List Cell → Option (List α × List Cell)
  wrap : List α → Document
  collect?_last (e : α) (rest : List Cell) :
    collect? (cells e ++ .mark closing :: rest) = some ([e], rest)
  collect?_comma (e : α) (rest : List Cell) :
    collect? (cells e ++ .mark .comma :: rest) = (collect? rest).map fun r => (e :: r.1, r.2)
  push_closing (rest : List Cell) : push (.mark closing) rest = some (.mark closing :: rest)
  push_empty (rest : List Cell) :
    push (.mark opening) (.mark closing :: rest) = some (.value (wrap []) :: rest)
  push_opening {taken rest : List Cell} {es : List α} (h : collect? taken = some (es, rest)) :
    push (.mark opening) taken = some (.value (wrap es) :: rest)

namespace Brackets

/-- The brackets of a list. -/
def items : Brackets Document where
  opening := .openList
  closing := .closeList
  cells d := [.value d]
  collect? := items?
  wrap := .list
  collect?_last _ _ := rfl
  collect?_comma _ _ := rfl
  push_closing _ := rfl
  push_empty _ := rfl
  push_opening h := by
    rw [push, h]
    · rfl
    · rintro _ rfl
      cases h

/-- The brackets of an object. -/
def members : Brackets (String × Document) where
  opening := .openObject
  closing := .closeObject
  cells e := [.value (.text e.1), .mark .colon, .value e.2]
  collect? := members?
  wrap := .object
  collect?_last _ _ := rfl
  collect?_comma _ _ := rfl
  push_closing _ := rfl
  push_empty _ := rfl
  push_opening h := by
    rw [push, h]
    · rfl
    · rintro _ rfl
      cases h

variable {α : Type} (b : Brackets α)

/-- The cells of entries with commas between them and the closing bracket behind them. -/
def joined (e : α) : List α → List Cell
  | [] => b.cells e ++ [.mark b.closing]
  | e' :: es => b.cells e ++ .mark .comma :: joined e' es

theorem collect?_joined (e : α) (es : List α) (rest : List Cell) :
    b.collect? (b.joined e es ++ rest) = some (e :: es, rest) := by
  induction es generalizing e with
  | nil => rw [joined, List.append_assoc, List.singleton_append, collect?_last]
  | cons e' es ih =>
    rw [joined, List.append_assoc, List.cons_append, collect?_comma, ih, Option.map_some]

theorem reads_joined {spaces tail s : List Char} {e : α} {ss : List (List Char)} {es : List α}
    (hspaces : ∀ c ∈ spaces, isSpace c = true) (htail : Reads ('\n' :: tail) [.mark b.closing])
    (h : Reads s (b.cells e)) (hs : List.Forall₂ (fun s e => Reads s (b.cells e)) ss es) :
    Reads ([',', '\n'].intercalate ((s :: ss).map (spaces ++ ·)) ++ '\n' :: tail)
      (b.joined e es) := by
  -- The first entry stands apart, since there is a comma before all others.
  induction hs generalizing s e with
  | nil =>
    rw [List.map_singleton, List.intercalate_singleton]
    exact (h.spaces hspaces).append htail (.inl rfl)
  | @cons s' e' ss es h' _ ih =>
    have hcomma : Reads (',' :: '\n' :: ([',', '\n'].intercalate ((s' :: ss).map (spaces ++ ·))
        ++ '\n' :: tail)) (.mark .comma :: b.joined e' es) :=
      (ih h').newline.mark (m := .comma) fun _ => rfl
    rw [List.map_cons, List.map_cons, List.intercalate_cons_cons, ← List.map_cons,
      List.append_assoc, List.append_assoc]
    exact (h.spaces hspaces).append hcomma (.inr ⟨.comma, rfl⟩)

/-- Entries between brackets are read as the document that they make. -/
theorem reads_block {opening closing : String} (hopening : opening.toList = [b.opening.char])
    (hclosing : closing.toList = [b.closing.char]) (depth : Nat) {ss : List String} {es : List α}
    (h : List.Forall₂ (fun s e => Reads s.toList (b.cells e)) ss es) :
    Reads (block opening closing depth ss).toList [.value (b.wrap es)] := by
  have hblanks (depth : Nat) : ∀ c ∈ (indentation depth).toList, isSpace c = true := by
    intro c hc
    rw [indentation, String.toList_ofList] at hc
    rw [(List.mem_replicate.1 hc).2]
    rfl
  have hend : Reads [b.closing.char] [.mark b.closing] := reads_nil.mark b.push_closing
  cases h with
  | nil =>
    rw [block, String.toList_append, hopening, hclosing]
    exact hend.mark b.push_empty
  | @cons s e ss es h hs =>
    have hentries := b.reads_joined (hblanks (depth + 1)) (hend.spaces (hblanks depth)).newline h
      (List.forall₂_map_left_iff.2 hs)
    have hlines : ((s :: ss).map fun s => indentation (depth + 1) ++ s).map String.toList =
        (s.toList :: ss.map String.toList).map ((indentation (depth + 1)).toList ++ ·) := by
      simp
    rw [block, String.toList_append, String.toList_append, String.toList_append,
      String.toList_append, String.toList_append, String.toList_intercalate, hlines, hopening,
      hclosing]
    · simp only [List.append_assoc]
      exact hentries.newline.mark fun rest => b.push_opening (b.collect?_joined e es rest)
    · exact List.cons_ne_nil s ss

end Brackets

/-! ## Rendered values -/

/-- A word of the language is read as it stands. -/
theorem IsWord.reads {s : String} (h : IsWord s.toList) : Reads s.toList [.value (.word s)] := by
  have hspells := h.spells
  rw [String.ofList_toList] at hspells
  exact hspells.reads

theorem reads_member {s key : String} {d : Document} (h : Reads s.toList [.value d]) :
    Reads (quoted key ++ ": " ++ s).toList (Brackets.members.cells (key, d)) := by
  have hblank : Reads (' ' :: s.toList) [.value d] := h.spaces (List.forall_mem_singleton.2 rfl)
  have hcolon : Reads (':' :: ' ' :: s.toList) [.mark .colon, .value d] :=
    hblank.mark (m := .colon) fun _ => rfl
  rw [String.toList_append, String.toList_append, List.append_assoc]
  exact (reads_quoted key).append hcolon (.inr ⟨.colon, rfl⟩)

mutual

/-- What is written for a value is read as its document. -/
theorem reads_render (depth : Nat) : ∀ v : Json, Reads (v.render depth).toList [.value v.document]
  | .null => by
    rw [render, document]
    exact (isWord_of_checks (by decide) (by decide)).reads
  | .bool b => by
    rw [render, document]
    cases b with
    | false => exact (isWord_of_checks (by decide) (by decide)).reads
    | true => exact (isWord_of_checks (by decide) (by decide)).reads
  | .number n => by
    rw [render, document]
    exact (spells_number n).reads
  | .real x => by
    rw [render, document]
    exact (isWord_real x).reads
  | .text s => by
    rw [render, document]
    exact reads_quoted s
  | .list vs => by
    rw [render, document]
    exact Brackets.items.reads_block rfl rfl depth (reads_renderItems (depth + 1) vs)
  | .object ms => by
    rw [render, document]
    exact Brackets.members.reads_block rfl rfl depth (reads_renderMembers (depth + 1) ms)

theorem reads_renderItems (depth : Nat) : ∀ vs : List Json,
    List.Forall₂ (fun s d => Reads s.toList (Brackets.items.cells d))
      (renderItems depth vs) (documents vs)
  | [] => by
    rw [renderItems, documents]
    exact .nil
  | v :: vs => by
    rw [renderItems, documents]
    exact .cons (reads_render depth v) (reads_renderItems depth vs)

theorem reads_renderMembers (depth : Nat) : ∀ ms : List (String × Json),
    List.Forall₂ (fun s e => Reads s.toList (Brackets.members.cells e))
      (renderMembers depth ms) (memberDocuments ms)
  | [] => by
    rw [renderMembers, memberDocuments]
    exact .nil
  | (key, v) :: ms => by
    rw [renderMembers, memberDocuments]
    exact .cons (reads_member (reads_render depth v)) (reads_renderMembers depth ms)

end

/-- Every value is read back from its text. -/
theorem read?_render (v : Json) (depth : Nat) : read? (v.render depth) = some v.document := by
  obtain ⟨ts, hscans, hstack⟩ := reads_render depth v
  have htokens : scan (.outside []) (v.render depth).toList = ts := by
    have hend := hscans [] trivial
    rwa [List.append_nil, scan, finished, if_pos rfl, List.append_nil] at hend
  have hcells := hstack [] [] rfl
  rw [List.append_nil] at hcells
  rw [read?, htokens, hcells]
  rfl

example : (read? "[1 2]").isNone = true := by decide +kernel
example : (read? "").isNone = true := by decide +kernel

end Json

end ShellAudit
