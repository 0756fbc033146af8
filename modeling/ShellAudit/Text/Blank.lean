-- SUMMARY: White space, and the trimming of texts at either end.

/-!
# Blank characters

White space is the set of blank characters of the Unicode standard together
with the four information separators U+001C to U+001F. Trimming takes the set
as a predicate, since quotes and dollar signs are trimmed in the same way.
-/

namespace ShellAudit.Text

/-- White space: ASCII blanks, the information separators, and the blank
characters beyond ASCII. -/
def isBlank (c : Char) : Bool :=
  let n := c.toNat
  (0x09 ≤ n && n ≤ 0x0D) || (0x1C ≤ n && n ≤ 0x20) || n == 0x85 || n == 0xA0 || n == 0x1680 ||
    (0x2000 ≤ n && n ≤ 0x200A) || n == 0x2028 || n == 0x2029 || n == 0x202F || n == 0x205F ||
    n == 0x3000

/-! ## Trimming -/

/-- The text without its longest tail of characters in `p`. -/
def trimEnd (p : Char → Bool) (s : List Char) : List Char :=
  (s.reverse.dropWhile p).reverse

/-- The text without its longest head and its longest tail of characters in `p`. -/
def trim (p : Char → Bool) (s : List Char) : List Char :=
  trimEnd p (s.dropWhile p)

@[simp] theorem trimEnd_nil (p : Char → Bool) : trimEnd p [] = [] := rfl

@[simp] theorem trim_nil (p : Char → Bool) : trim p [] = [] := rfl

/-- What `trimEnd` cuts off is a tail of characters in `p`. -/
theorem trimEnd_append_takeWhile (p : Char → Bool) (s : List Char) :
    trimEnd p s ++ (s.reverse.takeWhile p).reverse = s := by
  rw [trimEnd, ← List.reverse_append, List.takeWhile_append_dropWhile, List.reverse_reverse]

/-- Where no character is in `p`, there is nothing to trim. -/
theorem trim_eq_self {p : Char → Bool} {s : List Char} (h : ∀ c ∈ s, p c = false) :
    trim p s = s := by
  have dropped {t : List Char} (ht : ∀ c ∈ t, p c = false) : t.dropWhile p = t := by
    cases t with
    | nil => rfl
    | cons c cs => rw [List.dropWhile_cons, if_neg (by simp [ht c List.mem_cons_self])]
  rw [trim, dropped h, trimEnd, dropped fun c hc => h c (List.mem_reverse.1 hc),
    List.reverse_reverse]

end ShellAudit.Text
