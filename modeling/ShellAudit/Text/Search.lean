-- SUMMARY: Finding, replacing and splitting by a piece of text.

/-!
# Searching in a text

Every search looks for a needle, a piece of text, from left to right. Two
occurrences that are replaced or split at never overlap: after one of them the
search goes on behind it. The empty needle occurs at every position, the end
of the text included.
-/

namespace ShellAudit.Text

/-! ## Positions -/

/-- The first position at which `needle` stands. -/
def find? (needle : List Char) : List Char → Option Nat
  | [] => if needle = [] then some 0 else none
  | c :: cs => if needle.isPrefixOf (c :: cs) then some 0 else (find? needle cs).map (· + 1)

/-- The first position from `start` on at which `needle` stands. -/
def findFrom? (needle : List Char) (start : Nat) (s : List Char) : Option Nat :=
  if start ≤ s.length then (find? needle (s.drop start)).map (· + start) else none

/-- The last position at which `needle` stands. -/
def findLast? (needle : List Char) : List Char → Option Nat
  | [] => if needle = [] then some 0 else none
  | c :: cs =>
    match findLast? needle cs with
    | some i => some (i + 1)
    | none => if needle.isPrefixOf (c :: cs) then some 0 else none

/-- Whether `needle` stands somewhere in the text. -/
def contains (s needle : List Char) : Bool := (find? needle s).isSome

/-- A position that is found is one where the needle stands. -/
theorem isPrefixOf_of_find? {needle s : List Char} {i : Nat} (h : find? needle s = some i) :
    needle.isPrefixOf (s.drop i) = true := by
  induction s generalizing i with
  | nil =>
    simp only [find?] at h
    split at h
    · rename_i hn; simp [hn]
    · simp at h
  | cons c cs ih =>
    simp only [find?] at h
    split at h
    · rename_i hp; cases h; simpa using hp
    · obtain ⟨j, hj, rfl⟩ := Option.map_eq_some_iff.1 h
      simpa using ih hj

theorem contains_iff_infix {needle s : List Char} : contains s needle = true ↔ needle <:+: s := by
  unfold contains
  induction s with
  | nil => cases needle <;> simp [find?]
  | cons c s ih =>
    rw [List.infix_cons_iff, ← ih, ← List.isPrefixOf_iff_prefix, find?]
    split
    · rename_i hstarts
      simp [hstarts]
    · rename_i hstarts
      simp [hstarts]

/-! ## Replacing and splitting -/

/-- Replaces the occurrences of a needle that is not empty, after passing over
the first `skip` characters. -/
def replaceFrom (needle new : List Char) : Nat → List Char → List Char
  | _, [] => []
  | skip + 1, _ :: cs => replaceFrom needle new skip cs
  | 0, c :: cs =>
    if needle.isPrefixOf (c :: cs) then new ++ replaceFrom needle new (needle.length - 1) cs
    else c :: replaceFrom needle new 0 cs

/-- The text with every occurrence of `needle` replaced by `new`. The empty
needle puts `new` in front of every character and at the end. -/
def replace (needle new s : List Char) : List Char :=
  if needle = [] then new ++ s.flatMap (fun c => c :: new) else replaceFrom needle new 0 s

/-- The pieces between the occurrences of `sep`, after passing over the first
`skip` characters. -/
def splitFrom (sep : List Char) : Nat → List Char → List (List Char)
  | _, [] => [[]]
  | skip + 1, _ :: cs => splitFrom sep skip cs
  | 0, c :: cs =>
    if sep.isPrefixOf (c :: cs) then [] :: splitFrom sep (sep.length - 1) cs
    else
      match splitFrom sep 0 cs with
      | [] => [[c]]
      | p :: ps => (c :: p) :: ps

/-- The pieces of the text between the occurrences of `sep`. -/
def split (sep s : List Char) : List (List Char) := splitFrom sep 0 s

/-! ## Dotted names -/

/-- The part of a dotted name after its last dot. -/
def lastComponent (s : List Char) : List Char :=
  (s.reverse.takeWhile (· ≠ '.')).reverse

/-- The part of a text before the first `=`; the whole text if there is none. -/
def beforeEquals (s : List Char) : List Char :=
  s.takeWhile (· ≠ '=')

end ShellAudit.Text
