-- SUMMARY: The two ways of cutting a text into lines, and the folding of newline spellings.

/-!
# Lines and rows

A script is looked at in two ways. Its *rows* end after a line feed only and
keep it; they are what a file is read and written by. Its *lines* end at any
line separator and drop it; they are what positions are checked against.
-/

namespace ShellAudit.Text

/-- The characters that end a line. -/
def isLineBreak (c : Char) : Bool :=
  let n := c.toNat
  (0x0A ≤ n && n ≤ 0x0D) || (0x1C ≤ n && n ≤ 0x1E) || n == 0x85 || n == 0x2028 || n == 0x2029

/-- Puts a character in front of the first piece. -/
def consFirst (c : Char) : List (List Char) → List (List Char)
  | [] => [[c]]
  | p :: ps => (c :: p) :: ps

/-- The lines of a text, without their separators. A carriage return and the
line feed after it are one separator, and a separator at the end of the text
starts no further line. -/
def lines : List Char → List (List Char)
  | [] => []
  | '\r' :: '\n' :: cs => [] :: lines cs
  | c :: cs => if isLineBreak c then [] :: lines cs else consFirst c (lines cs)

/-- The rows of a text, each with the line feed that ends it. -/
def rows : List Char → List (List Char)
  | [] => []
  | c :: cs => if c = '\n' then [c] :: rows cs else consFirst c (rows cs)

/-- Writes every newline as a single line feed. -/
def unifyNewlines : List Char → List Char
  | [] => []
  | '\r' :: '\n' :: cs => '\n' :: unifyNewlines cs
  | c :: cs => (if c = '\r' then '\n' else c) :: unifyNewlines cs

@[simp] theorem flatten_consFirst (c : Char) (ps : List (List Char)) :
    (consFirst c ps).flatten = c :: ps.flatten := by
  cases ps <;> simp [consFirst]

/-- Rows lose nothing: written one after the other they are the text. -/
theorem flatten_rows (s : List Char) : (rows s).flatten = s := by
  induction s with
  | nil => rfl
  | cons c cs ih => by_cases h : c = '\n' <;> simp [rows, h, ih]

/-- No carriage return is left. -/
theorem not_mem_unifyNewlines (s : List Char) : '\r' ∉ unifyNewlines s := by
  fun_induction unifyNewlines s with
  | case1 => simp
  | case2 cs ih => simp [ih]
  | case3 c cs _ ih => by_cases h : c = '\r' <;> simp [h, ih, Ne.symm]

/-- The lines of a string. -/
def linesOf (s : String) : List String :=
  (lines s.toList).map String.ofList

/-- The rows of a string. -/
def rowsOf (s : String) : List String :=
  (rows s.toList).map String.ofList

end ShellAudit.Text
