-- SUMMARY: Texts between quotation marks, as debug lines show them.
import ShellAudit.Text.Hex
import ShellAudit.Text.Printable

/-!
# Quoted text

A text is shown between single quotes, or between double quotes if it holds a
single quote and no double quote. The backslash, the quote in use and every
character that is not printable are escaped.
-/

namespace ShellAudit.Text

/-- The quote that goes around a text. -/
def quoteFor (s : List Char) : Char :=
  if '\x27' ∈ s ∧ '"' ∉ s then '"' else '\x27'

/-- A character inside a text that stands between two of `quote`. -/
def escaped (quote c : Char) : List Char :=
  if c = quote ∨ c = '\\' then ['\\', c]
  else if c = '\t' then ['\\', 't']
  else if c = '\n' then ['\\', 'n']
  else if c = '\r' then ['\\', 'r']
  else if isPrintable c then [c]
  else if c.toNat < 0x100 then '\\' :: 'x' :: hex 2 c.toNat
  else if c.toNat < 0x10000 then '\\' :: 'u' :: hex 4 c.toNat
  else '\\' :: 'U' :: hex 8 c.toNat

/-- A text between quotes. -/
def quoted (s : String) : String :=
  let quote := quoteFor s.toList
  String.ofList (quote :: s.toList.flatMap (escaped quote) ++ [quote])

end ShellAudit.Text
