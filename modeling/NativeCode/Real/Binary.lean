import NativeCode.Word
import NativeCode.Real.Rounding

/-!
# Binary float formats

A binary format is given by its precision and the width of its exponent field. `encode` gives the
bits of the float nearest to a quotient, `decode` the number that bits stand for.
-/

namespace NativeCode.Real

/-- A binary format: the precision counts the leading bit, which normal numbers do not store. -/
structure Format where
  precision : Nat
  exponentBits : Nat
  deriving DecidableEq

/-- The absolute value that float bits stand for. -/
inductive Magnitude where
  /-- The number `significand * 2 ^ exponent`. -/
  | finite (significand : Nat) (exponent : Int)
  | infinite
  | nan
  deriving DecidableEq

namespace Format

def single : Format := ⟨24, 8⟩

def double : Format := ⟨53, 11⟩

def fractionBits (f : Format) : Nat := f.precision - 1

/-- The exponent of the least significand bit of the smallest numbers. -/
def minExponent (f : Format) : Int := 3 - (Nat.pow 2 (f.exponentBits - 1) : Nat) - f.precision

def infinity (f : Format) : Nat := (Nat.pow 2 f.exponentBits - 1) * Nat.pow 2 f.fractionBits

def quietNaN (f : Format) : Nat := f.infinity + Nat.pow 2 (f.fractionBits - 1)

def signBit (f : Format) (negative : Bool) : Nat :=
  if negative then Nat.pow 2 (f.fractionBits + f.exponentBits) else 0

/-- The bits of the float nearest to `num / den`, ties to even. -/
def encode (f : Format) (num den : Nat) : Nat :=
  if num = 0 then 0
  else
    let e := max (log2Quot num den - f.fractionBits) f.minExponent
    let steps := (e - f.minExponent).toNat
    min (steps * Nat.pow 2 f.fractionBits + scaledNearest 2 num den e) f.infinity

/-- The bits of the float nearest to `significand * 2 ^ exponent`. -/
def encodeScaled (f : Format) (significand : Nat) (exponent : Int) : Nat :=
  if 0 ≤ exponent then f.encode (significand * Nat.pow 2 exponent.toNat) 1
  else f.encode significand (Nat.pow 2 (-exponent).toNat)

def decode (f : Format) (bits : Nat) : Magnitude :=
  let field := bits / Nat.pow 2 f.fractionBits % Nat.pow 2 f.exponentBits
  let fraction := bits % Nat.pow 2 f.fractionBits
  if field = Nat.pow 2 f.exponentBits - 1 then
    if fraction = 0 then .infinite else .nan
  else if field = 0 then .finite fraction f.minExponent
  else .finite (fraction + Nat.pow 2 f.fractionBits) (f.minExponent + (field - 1 : Nat))

def isNegative (f : Format) (bits : Nat) : Bool :=
  bits / Nat.pow 2 (f.fractionBits + f.exponentBits) % 2 == 1

end Format

def narrow (bits : Nat) : Nat :=
  Format.single.signBit (Format.double.isNegative bits) +
    match Format.double.decode bits with
    | .finite significand exponent => Format.single.encodeScaled significand exponent
    | .infinite => Format.single.infinity
    | .nan => Format.single.quietNaN

end NativeCode.Real
