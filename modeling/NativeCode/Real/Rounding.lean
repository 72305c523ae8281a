/-!
# Rounded quotients

Quotients of natural numbers rounded to the nearest integer, and the integer part of their
logarithms. All float reading and printing of the library is built from these, in exact arithmetic.
-/

namespace NativeCode.Real

/-- The integer nearest to `num / den`; a half goes to the even neighbour. -/
def divNearest (num den : Nat) : Nat :=
  let q := num / den
  let r := num % den
  if 2 * r < den then q
  else if den < 2 * r then q + 1
  else if q % 2 = 0 then q else q + 1

def scaledNearest (base : Nat) (num den : Nat) (e : Int) : Nat :=
  if 0 ≤ e then divNearest num (den * Nat.pow base e.toNat)
  else divNearest (num * Nat.pow base (-e).toNat) den

/-- The exponent `e` with `2 ^ e ≤ num / den < 2 ^ (e + 1)`, for a positive quotient. -/
def log2Quot (num den : Nat) : Int :=
  if den ≤ num then ((num / den).log2 : Int)
  else -(((den - 1) / num).log2 + 1 : Int)

def decimalLength (n : Nat) : Nat := (Nat.toDigits 10 n).length

/-- The exponent `e` with `10 ^ e ≤ num / den < 10 ^ (e + 1)`, for a positive quotient. -/
def log10Quot (num den : Nat) : Int :=
  if den ≤ num then (decimalLength (num / den) : Int) - 1
  else -(decimalLength ((den - 1) / num) : Int)

end NativeCode.Real
