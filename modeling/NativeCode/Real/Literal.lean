import NativeCode.Text.Numeral
import NativeCode.Real.Binary

/-!
# Float literals

A float literal is an optional sign followed by a decimal number with an optional exponent, a
hexadecimal number with an optional binary exponent, or one of the words `inf`, `infinity` and `nan`
in any case. The whole text must be the literal. Its value is the nearest double.
-/

namespace NativeCode.Real

open NativeCode.Text

/-- A written number: `significand * base ^ exponent`, with base ten or two. -/
inductive Numeral where
  | decimal (significand : Nat) (exponent : Int)
  | hex (significand : Nat) (exponent : Int)
  deriving DecidableEq

def spanDigits (base : Nat) (cs : List Char) : List Char × List Char :=
  cs.span fun c => (digitBelow? base c).isSome

/-- A run of digits with an optional point: the digits and how many of them follow the point. -/
def mantissa (base : Nat) (cs : List Char) : List Char × Nat × List Char :=
  match spanDigits base cs with
  | (whole, '.' :: rest) =>
    let (fraction, rest) := spanDigits base rest
    (whole ++ fraction, fraction.length, rest)
  | (whole, rest) => (whole, 0, rest)

/-- An exponent with an optional sign that fills the text. -/
def exponent? : List Char → Option Int
  | '-' :: cs => (digits? 10 cs).map fun n => -(n : Int)
  | '+' :: cs => (digits? 10 cs).map Int.ofNat
  | cs => (digits? 10 cs).map Int.ofNat

/-- The exponent after one of the marks, zero if nothing is left. -/
def exponentPart? (mark : Char) : List Char → Option Int
  | [] => some 0
  | c :: cs => if c.toLower = mark then exponent? cs else none

def numeral? : List Char → Option Numeral
  | '0' :: 'x' :: cs => hexadecimal? cs
  | '0' :: 'X' :: cs => hexadecimal? cs
  | cs => do
    let (ds, places, rest) := mantissa 10 cs
    let significand ← digits? 10 ds
    let e ← exponentPart? 'e' rest
    return .decimal significand (e - places)
where
  /-- The number after the hexadecimal mark. -/
  hexadecimal? (cs : List Char) : Option Numeral := do
    let (ds, places, rest) := mantissa 16 cs
    let significand ← digits? 16 ds
    let e ← exponentPart? 'p' rest
    return .hex significand (e - 4 * places)

/-- The bits of the float of format `f` nearest to a number. Numbers far outside the range of every
format are not computed: they are infinite or zero. -/
def Numeral.encode (f : Format) : Numeral → Nat
  | .decimal significand exponent =>
    let length := (decimalLength significand : Int) + exponent
    if significand = 0 ∨ length < -400 then 0
    else if 400 < length then f.infinity
    else if 0 ≤ exponent then f.encode (significand * Nat.pow 10 exponent.toNat) 1
    else f.encode significand (Nat.pow 10 (-exponent).toNat)
  | .hex significand exponent =>
    let length := (significand.log2 : Int) + exponent
    if significand = 0 ∨ length < -1200 then 0
    else if 1200 < length then f.infinity
    else f.encodeScaled significand exponent

def unsigned? (cs : List Char) : Option Nat :=
  let word := String.ofList (cs.map Char.toLower)
  if word = "inf" ∨ word = "infinity" then some Format.double.infinity
  else if word = "nan" then some Format.double.quietNaN
  else (numeral? cs).map (Numeral.encode .double)

def double? : List Char → Option Nat
  | '-' :: cs => (unsigned? cs).map (Format.double.signBit true + ·)
  | '+' :: cs => unsigned? cs
  | cs => unsigned? cs

/-- The bits of a literal in single precision: the nearest double, rounded to a single. -/
def single? (cs : List Char) : Option Nat := (double? cs).map narrow

end NativeCode.Real
