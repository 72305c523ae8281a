import NativeCode.Real.Significant
import NativeCode.Text.Bytes

/-!
# Fields

A field is a text or a number laid out with flags, a least width and a precision, all counted in
bytes. The precision is the most that is taken of a text, the least number of digits of an integer
and the number of places or digits of a real.
-/

namespace NativeCode.Shell.Format

structure Flags where
  /-- Fill up on the right. -/
  left : Bool := false
  /-- Write a plus before numbers that are not negative. -/
  plus : Bool := false
  /-- Write a blank before numbers that are not negative. -/
  blank : Bool := false
  /-- Write the mark of a base, and points before no digits. -/
  alternate : Bool := false
  /-- Fill up with zeros. -/
  zeros : Bool := false
  deriving DecidableEq, Inhabited

def Flags.add? (f : Flags) : Char → Option Flags
  | '-' => some { f with left := true }
  | '+' => some { f with plus := true }
  | ' ' => some { f with blank := true }
  | '#' => some { f with alternate := true }
  | '0' => some { f with zeros := true }
  | _ => none

structure Layout where
  flags : Flags := {}
  width : Nat := 0
  precision : Option Nat := none
  deriving DecidableEq, Inhabited

namespace Layout

/-- A text after its sign, filled up to the width. Zeros, if they are allowed, go between the two.
-/
def fill (l : Layout) (zeros : Bool) (sign body : Bytes) : Bytes :=
  let missing := l.width - (sign.length + body.length)
  if l.flags.left then sign ++ body ++ List.replicate missing ' '.toUInt8
  else if l.flags.zeros && zeros then sign ++ List.replicate missing '0'.toUInt8 ++ body
  else List.replicate missing ' '.toUInt8 ++ sign ++ body

def text (l : Layout) (bs : Bytes) : Bytes :=
  l.fill false [] ((l.precision.map bs.take).getD bs)

def byte (l : Layout) (b : UInt8) : Bytes := l.fill false [] [b]

def sign (l : Layout) (negative : Bool) : List Char :=
  if negative then ['-']
  else if l.flags.plus then ['+']
  else if l.flags.blank then [' ']
  else []

/-- The digits of an integer: none for zero with precision zero. -/
def digits (l : Layout) (base n : Nat) : List Char :=
  if n = 0 && l.precision = some 0 then [] else Real.digitsOf base (l.precision.getD 0) n

def fillsZeros (l : Layout) : Bool := l.precision.isNone

def signed (l : Layout) (n : Int) : Bytes :=
  l.fill l.fillsZeros (Bytes.ofChars (l.sign (n < 0))) (Bytes.ofChars (l.digits 10 n.natAbs))

/-- An unsigned integer as a field: octal, decimal or hexadecimal by its letter. -/
def unsigned (l : Layout) (letter : Char) (n : Nat) : Bytes :=
  match letter with
  | 'o' =>
    let ds := l.digits 8 n
    let ds := if l.flags.alternate && ds.head? != some '0' then '0' :: ds else ds
    l.fill l.fillsZeros [] (Bytes.ofChars ds)
  | 'u' => l.fill l.fillsZeros [] (Bytes.ofChars (l.digits 10 n))
  | _ =>
    let cased (cs : List Char) : Bytes :=
      Bytes.ofChars (if letter = 'X' then cs.map Char.toUpper else cs)
    let mark := if l.flags.alternate && n != 0 then ['0', 'x'] else []
    l.fill l.fillsZeros (cased mark) (cased (l.digits 16 n))

/-- The finite number `significand * 2 ^ exponent` in the form of a letter. -/
def finite (l : Layout) (letter : Char) (significand : Nat) (exponent : Int) : List Char :=
  let (num, den) := Real.quotient significand exponent
  let precision := l.precision.getD 6
  match letter with
  | 'f' => Real.positional l.flags.alternate precision num den
  | 'e' => Real.scientific l.flags.alternate precision num den
  | 'g' => Real.general l.flags.alternate (max precision 1) num den
  | _ => Real.hexadecimal l.flags.alternate l.precision significand exponent

/-- The bits of a double as a field. A capital letter has capital letters in the field. -/
def real (l : Layout) (letter : Char) (bits : Nat) : Bytes :=
  let form := letter.toLower
  let sign := l.sign (Real.Format.double.isNegative bits)
  let (zeros, mark, body) : Bool × List Char × List Char :=
    match Real.Format.double.decode bits with
    | .finite significand exponent =>
      (true, if form = 'a' then ['0', 'x'] else [], l.finite form significand exponent)
    | .infinite => (false, [], "inf".toList)
    | .nan => (false, [], "nan".toList)
  let cased (cs : List Char) : Bytes :=
    Bytes.ofChars (if letter.isUpper then cs.map Char.toUpper else cs)
  l.fill zeros (cased (sign ++ mark)) (cased body)

end Layout

end NativeCode.Shell.Format
