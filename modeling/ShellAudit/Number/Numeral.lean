-- SUMMARY: The fewest decimal digits that identify a binary number, and how they are written.
import ShellAudit.Number.Binary

/-!
# Numerals

A binary number is written with the fewest digits that are read back as the same
number; of several such decimals the nearest is taken, and the one with an even
last digit if two are equally near. Numbers from a ten-thousandth up to 10^16 are
written with a point and at least one digit on either side of it, all others with
an exponent of at least two digits.
-/

namespace ShellAudit

/-- The decimal that has its point `point` digits behind the start of `digits`. -/
structure Numeral where
  digits : List Char
  point : Int
deriving DecidableEq, Repr, Inhabited

namespace Magnitude

/-! ## Selection of the digits -/

/-- The numerator of a magnitude over `10 ^ grid`. -/
def numerator (x : Magnitude) (grid : Int) : Nat := raised 10 (raised 2 x.m x.q) (-grid)

/-- The denominator of a magnitude over `10 ^ grid`. -/
def denominator (x : Magnitude) (grid : Int) : Nat := raised 10 (raised 2 1 (-x.q)) grid

/-- The number of digits before the point, negative if zeros come first behind it. -/
def scale (x : Magnitude) : Int :=
  let grid := -Binary.farExponent
  (Nat.toDigits 10 (x.numerator grid / x.denominator grid)).length + grid

/-- The multiple of `10 ^ grid` next to a magnitude that is read back as it. -/
def neighbour? (x : Magnitude) (grid : Int) : Option Nat :=
  let n := x.numerator grid
  let d := x.denominator grid
  let low := n / d
  if ofDecimal low grid = x then
    if ofDecimal (low + 1) grid = x then some (roundDiv n d) else some low
  else if ofDecimal (low + 1) grid = x then some (low + 1)
  else none

/-- The numeral of `value * 10 ^ grid`, without zeros at its end. -/
def numeralOf (value : Nat) (grid : Int) : Numeral :=
  let digits := Nat.toDigits 10 value
  { digits := (digits.reverse.dropWhile (· = '0')).reverse
    point := digits.length + grid }

/-- The numeral with all digits of a magnitude. -/
def fullNumeral (x : Magnitude) : Numeral :=
  let grid := -Binary.farExponent
  numeralOf (x.numerator grid / x.denominator grid) grid

/-- The numeral with the fewest digits that is read back as a magnitude. No more
than 17 are needed. -/
def shortest (x : Magnitude) : Numeral :=
  let grids := (List.range 17).map fun (n : Nat) => x.scale - (n + 1 : Int)
  (grids.findSome? fun grid => (x.neighbour? grid).map fun value => numeralOf value grid).getD
    x.fullNumeral

end Magnitude

namespace Numeral

/-! ## Layout -/

/-- The digits with a point among them. -/
def positional (n : Numeral) : List Char :=
  let before := n.digits.take n.point.toNat
  let behind := List.replicate (-n.point).toNat '0' ++ n.digits.drop n.point.toNat
  (if before = [] then ['0'] else before ++ List.replicate (n.point.toNat - before.length) '0')
    ++ '.' :: (if n.point.toNat < n.digits.length then behind else ['0'])

/-- The digits with a point behind the first of them, and an exponent. -/
def scientific (n : Numeral) : List Char :=
  let exponent := n.point - 1
  let digits := Nat.toDigits 10 exponent.natAbs
  n.digits.take 1
    ++ (if n.digits.length ≤ 1 then [] else '.' :: n.digits.drop 1)
    ++ 'e' :: (if exponent < 0 then '-' else '+')
    :: List.replicate (2 - digits.length) '0' ++ digits

/-- A numeral as it is written. -/
def text (n : Numeral) : List Char :=
  if -4 < n.point ∧ n.point ≤ 16 then n.positional else n.scientific

end Numeral

namespace Binary

/-- A binary number as it is written. -/
def text : Binary → String
  | finite negative x =>
    let magnitude := if x.m = 0 then "0.0".toList else x.shortest.text
    String.ofList (if negative then '-' :: magnitude else magnitude)
  | infinite negative => if negative then "-Infinity" else "Infinity"
  | undefined => "NaN"

example : (ofDecimal false 1 (-1)).text = "0.1" := by decide +kernel
example : (ofDecimal true 0 0).text = "-0.0" := by decide +kernel
example : (ofDecimal false 1 16).text = "1e+16" := by decide +kernel

end Binary

end ShellAudit
