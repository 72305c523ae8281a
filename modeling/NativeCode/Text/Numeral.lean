import NativeCode.Word
import NativeCode.Text.Ascii

/-!
# Integer numerals

Indices are decimal numerals below `2 ^ 32`. Integer literals have an optional sign and a magnitude
below `2 ^ 64`, written in decimal or, after `0x` or `0X`, in hexadecimal; their value is a 64-bit
word, so a negative literal wraps.
-/

namespace NativeCode.Text

def digitValue? (c : Char) : Option Nat :=
  if '0' ≤ c && c ≤ '9' then some (c.toNat - '0'.toNat)
  else if 'a' ≤ c && c ≤ 'f' then some (c.toNat - 'a'.toNat + 10)
  else if 'A' ≤ c && c ≤ 'F' then some (c.toNat - 'A'.toNat + 10)
  else none

def digitBelow? (base : Nat) (c : Char) : Option Nat := (digitValue? c).filter (· < base)

def digitsFrom? (base acc : Nat) : List Char → Option Nat
  | [] => some acc
  | c :: cs =>
    match digitBelow? base c with
    | some d => digitsFrom? base (base * acc + d) cs
    | none => none

def digits? (base : Nat) : List Char → Option Nat
  | [] => none
  | c :: cs => digitsFrom? base 0 (c :: cs)

def index? (cs : List Char) : Option Nat := (digits? 10 cs).filter (· < 4294967296)

def magnitude? (cs : List Char) : Option Nat :=
  let value :=
    match cs with
    | '0' :: 'x' :: c :: rest => digits? 16 (c :: rest)
    | '0' :: 'X' :: c :: rest => digits? 16 (c :: rest)
    | cs => digits? 10 cs
  value.filter (· < 18446744073709551616)

/-- The word of an integer literal with an optional sign. -/
def integer? : List Char → Option Word
  | '-' :: cs => (magnitude? cs).map fun m => -BitVec.ofNat 64 m
  | '+' :: cs => (magnitude? cs).map (BitVec.ofNat 64)
  | cs => (magnitude? cs).map (BitVec.ofNat 64)

end NativeCode.Text
