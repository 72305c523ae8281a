import NativeCode.Real.Decimal

/-!
# Floats in six significant digits

Floats are printed with six significant digits and without zeros at the end. Numbers from `0.0001`
up to a million are written positionally, all others with an exponent of at least two digits.
-/

namespace NativeCode.Real

/-- The number `significand * 2 ^ exponent` as a quotient. -/
def quotient (significand : Nat) (exponent : Int) : Nat × Nat :=
  if 0 ≤ exponent then (significand * Nat.pow 2 exponent.toNat, 1)
  else (significand, Nat.pow 2 (-exponent).toNat)

def magnitudeText : Magnitude → List Char
  | .finite significand exponent =>
    let (num, den) := quotient significand exponent
    general false 6 num den
  | .infinite => "inf".toList
  | .nan => "nan".toList

def text (f : Format) (bits : Nat) : String :=
  String.ofList ((if f.isNegative bits then ['-'] else []) ++ magnitudeText (f.decode bits))

end NativeCode.Real
