-- SUMMARY: Numbers in base sixteen, with a least number of digits.

/-!
# Hexadecimal numerals
-/

namespace ShellAudit.Text

/-- The digits of `n` in base sixteen, in lower case, led by zeros up to `width`. -/
def hex (width n : Nat) : List Char :=
  let digits := Nat.toDigits 16 n
  List.replicate (width - digits.length) '0' ++ digits

example : hex 4 0xE9 = "00e9".toList ∧ hex 2 0x1B = "1b".toList := by decide

end ShellAudit.Text
