import NativeCode.Real.Binary

/-!
# Numbers in digits

Quotients written with a given number of places or of significant digits, exactly rounded, a half
going to the even digit. There are three decimal forms: positional, with an exponent, and the one
of these two that fits the size of the number. A fourth form has hexadecimal digits.

Each form takes a flag. With it a point stands even where no digit follows, and zeros at the end
stay; without it they may go.
-/

namespace NativeCode.Real

/-- The `count` significant digits of a quotient as one number, and the exponent of the first of
them. Zero has the exponent zero. -/
def significant (count num den : Nat) : Nat × Int :=
  if num = 0 then (0, 0)
  else
    let e := log10Quot num den
    let d := scaledNearest 10 num den (e - (count - 1 : Nat))
    if d = Nat.pow 10 count then (Nat.pow 10 (count - 1), e + 1) else (d, e)

/-- The digits of a number in a base, at least `count` of them. -/
def digitsOf (base count n : Nat) : List Char := (Nat.toDigits base n).leftpad count '0'

def dropZeros (ds : List Char) : List Char := (ds.reverse.dropWhile (· == '0')).reverse

/-- A whole part and a fraction with a point between them. -/
def withPoint (keep : Bool) (whole fraction : List Char) : List Char :=
  if fraction.isEmpty && !keep then whole else whole ++ '.' :: fraction

def exponentSign (e : Int) : Char := if e < 0 then '-' else '+'

/-- An exponent after its mark, with its sign and at least `count` digits. -/
def exponentText (mark : Char) (count : Nat) (e : Int) : List Char :=
  mark :: exponentSign e :: digitsOf 10 count e.natAbs

/-- A quotient with a number of places after the point. -/
def positional (keep : Bool) (places num den : Nat) : List Char :=
  let ds := digitsOf 10 (places + 1) (scaledNearest 10 num den (-places))
  withPoint keep (ds.take (ds.length - places)) (ds.drop (ds.length - places))

/-- A quotient with one digit before the point, a number of places after it, and an exponent. -/
def scientific (keep : Bool) (places num den : Nat) : List Char :=
  let (d, e) := significant (places + 1) num den
  let ds := digitsOf 10 (places + 1) d
  withPoint keep (ds.take 1) (ds.drop 1) ++ exponentText 'e' 2 e

/-- A quotient with a number of significant digits: positionally from `0.0001` up to numbers with as
many digits before the point, with an exponent otherwise. -/
def general (keep : Bool) (count num den : Nat) : List Char :=
  let (d, e) := significant count num den
  let ds := digitsOf 10 count d
  let trim (ds : List Char) : List Char := if keep then ds else dropZeros ds
  if e < -4 ∨ count ≤ e then
    withPoint keep (ds.take 1) (trim (ds.drop 1)) ++ exponentText 'e' 2 e
  else if 0 ≤ e then
    withPoint keep (ds.take (e.toNat + 1)) (trim (ds.drop (e.toNat + 1)))
  else withPoint keep ['0'] (trim (List.replicate ((-e).toNat - 1) '0' ++ ds))

/-- The double `significand * 2 ^ exponent` with hexadecimal places after the point, as many as it
needs or a given number of them, and a binary exponent. -/
def hexadecimal (keep : Bool) (places : Option Nat) (significand : Nat) (exponent : Int) :
    List Char :=
  let all := Format.double.fractionBits / 4
  let count := min (places.getD all) all
  let d := divNearest significand (Nat.pow 16 (all - count))
  let ds := (digitsOf 16 (count + 1) d).rightpad (places.getD 0 + 1) '0'
  let fraction := if places.isSome then ds.drop 1 else dropZeros (ds.drop 1)
  let e := if significand = 0 then 0 else exponent + Format.double.fractionBits
  withPoint keep (ds.take 1) fraction ++ exponentText 'p' 1 e

end NativeCode.Real
