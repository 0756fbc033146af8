-- SUMMARY: Binary numbers of 53 digits, and the one that is nearest to a fraction.

/-!
# Binary numbers

Numbers with a fraction are kept in binary: a whole number of at most 53 binary
digits times a power of two. A number in between two of them is rounded to the
nearer one, and to the one with an even whole number if both are equally near.
All arithmetic is exact.
-/

namespace ShellAudit

/-- The magnitude `m * 2 ^ q`. -/
structure Magnitude where
  m : Nat
  q : Int
deriving DecidableEq, Repr, Inhabited

/-- A binary number: a signed magnitude, or what is beyond the largest one. -/
inductive Binary where
  | finite (negative : Bool) (magnitude : Magnitude)
  | infinite (negative : Bool)
  | undefined
deriving DecidableEq, Repr, Inhabited

namespace Magnitude

/-- The quotient `n / d` rounded to the nearest whole number, and to the even
one of two. -/
def roundDiv (n d : Nat) : Nat :=
  if 2 * (n % d) < d ∨ (2 * (n % d) = d ∧ n / d % 2 = 0) then n / d else n / d + 1

/-- The whole number `n * base ^ exponent`, or `n` if the exponent is negative. -/
def raised (base n : Nat) (exponent : Int) : Nat := n * Nat.pow base exponent.toNat

/-- The least exponent of a magnitude. -/
def leastExponent : Int := -1074

/-- The greatest exponent of a magnitude that has all its digits. -/
def greatestExponent : Int := 971

/-- The exponent that leaves 53 binary digits before the point of `n / d`, or the
least one if that is greater. -/
def exponentFor (n d : Nat) : Int :=
  let e : Int := (n.log2 : Int) - d.log2
  let reaches := raised 2 d e ≤ raised 2 n (-e)
  max (if reaches then e - 52 else e - 53) leastExponent

/-- The magnitude that is nearest to `n / d`. -/
def nearest (n d : Nat) : Magnitude :=
  let q := exponentFor n d
  let m := roundDiv (raised 2 n (-q)) (raised 2 d q)
  if m = raised 2 1 53 then ⟨raised 2 1 52, q + 1⟩ else ⟨m, q⟩

/-- The magnitude that is nearest to `digits * 10 ^ exponent`. -/
def ofDecimal (digits : Nat) (exponent : Int) : Magnitude :=
  nearest (raised 10 digits exponent) (raised 10 1 (-exponent))

end Magnitude

namespace Binary

/-- An exponent of ten that is beyond every finite number, in either direction. -/
def farExponent : Int := 400

/-- The binary number that is nearest to a signed decimal. -/
def ofDecimal (negative : Bool) (digits : Nat) (exponent : Int) : Binary :=
  if digits = 0 ∨ exponent + (Nat.toDigits 10 digits).length < -farExponent then
    finite negative ⟨0, Magnitude.leastExponent⟩
  else if farExponent < exponent then infinite negative
  else
    let x := Magnitude.ofDecimal digits exponent
    if Magnitude.greatestExponent < x.q then infinite negative else finite negative x

end Binary

end ShellAudit
