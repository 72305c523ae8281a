import NativeCode.Real.Literal
import NativeCode.Text.Bytes

/-!
# Numbers as arguments

A number that is an argument may have blanks and a sign in front, and may be followed by text that
is no part of it. After a quote stands a character whose first byte is the number.

Integers are decimal, octal after a zero, hexadecimal or binary after their marks; reals are written
as in float literals. Integers outside the range of 64 bits become its nearest end.
-/

namespace NativeCode.Shell.Format

open NativeCode.Real (Numeral spanDigits mantissa)

inductive Misfit where
  | notNumeric
  | followed
  | outOfRange
  deriving DecidableEq, Inhabited

def Misfit.message : Misfit → String
  | notNumeric => "expected numeric value"
  | followed => "not completely converted"
  | outOfRange => "Numerical result out of range"

/-- A number at the start of a text: its sign, its size, what follows, and whether it has the range
of its kind. -/
structure Leading where
  negative : Bool
  size : Nat
  rest : List Char
  inRange : Bool := true
  deriving DecidableEq, Inhabited

def isBlank (c : Char) : Bool := c = ' ' || ('\t' ≤ c && c ≤ '\r')

/-- Whether a text starts with a minus, and the text after its sign. -/
def splitSign : List Char → Bool × List Char
  | '-' :: cs => (true, cs)
  | '+' :: cs => (false, cs)
  | cs => (false, cs)

/-- The base of an integer and the text that starts with its digits. -/
def splitBase : List Char → Nat × List Char
  | '0' :: mark :: c :: cs =>
    let marks (lower : Char) (base : Nat) : Bool :=
      mark.toLower = lower && (Text.digitBelow? base c).isSome
    if marks 'x' 16 then (16, c :: cs)
    else if marks 'b' 2 then (2, c :: cs)
    else (8, '0' :: mark :: c :: cs)
  | '0' :: cs => (8, '0' :: cs)
  | cs => (10, cs)

def leadingInteger? (cs : List Char) : Option Leading := do
  let (negative, cs) := splitSign (cs.dropWhile isBlank)
  let (base, cs) := splitBase cs
  let (ds, rest) := spanDigits base cs
  return { negative, size := ← Text.digits? base ds, rest }

/-- The exponent at the start of a text after its mark, zero if there is none. -/
def leadingExponent (mark : Char) : List Char → Int × List Char
  | [] => (0, [])
  | c :: cs =>
    if c.toLower != mark then (0, c :: cs)
    else
      let (negative, digits) := splitSign cs
      let (ds, rest) := spanDigits 10 digits
      match Text.digits? 10 ds with
      | some n => (if negative then -n else n, rest)
      | none => (0, c :: cs)

/-- The digits of a base at the start of a text with an exponent in which a place of the base counts
as many steps. -/
def leadingDigits? (base : Nat) (mark : Char) (steps : Nat) (cs : List Char) :
    Option (Nat × Int × List Char) := do
  let (ds, places, rest) := mantissa base cs
  let significand ← Text.digits? base ds
  let (e, rest) := leadingExponent mark rest
  return (significand, e - (steps * places : Nat), rest)

def leadingNumeral? (cs : List Char) : Option (Numeral × List Char) :=
  let decimal? : Option (Numeral × List Char) :=
    (leadingDigits? 10 'e' 1 cs).map fun (n, e, rest) => (.decimal n e, rest)
  match cs with
  | '0' :: mark :: digits =>
    if mark.toLower != 'x' then decimal?
    else
      match leadingDigits? 16 'p' 4 digits with
      | some (n, e, rest) => some (.hex n e, rest)
      | none => decimal?
  | _ => decimal?

/-- The text after a word, whose letters can have any case. -/
def dropWord? : List Char → List Char → Option (List Char)
  | [], cs => some cs
  | w :: ws, c :: cs => if c.toLower = w then dropWord? ws cs else none
  | _ :: _, [] => none

/-- The text after the code in parentheses of a not-a-number. -/
def dropCode (cs : List Char) : List Char :=
  match cs with
  | '(' :: inner =>
    match inner.dropWhile fun c => c.isAlphanum || c = '_' with
    | ')' :: rest => rest
    | _ => cs
  | _ => cs

/-- Whether a number is a multiple of the least positive double. -/
def isMultiple : Numeral → Bool
  | .decimal n e =>
    0 ≤ e || (-2000 < e && n * Nat.pow 2 1074 % Nat.pow 10 (-e).toNat = 0)
  | .hex n e => -1074 ≤ e || (-10000 < e && n % Nat.pow 2 (-e - 1074).toNat = 0)

/-- Whether a number is a double or close to one: it is neither too large nor, when it is less than
the normal doubles, rounded. -/
def inDoubleRange (n : Numeral) : Bool :=
  let bits := n.encode .double
  bits < Real.Format.double.infinity &&
    (Nat.pow 2 Real.Format.double.fractionBits ≤ bits || isMultiple n)

/-- The real at the start of a text, by the bits of its absolute value. -/
def leadingReal? (cs : List Char) : Option Leading :=
  let (negative, cs) := splitSign (cs.dropWhile isBlank)
  let double := Real.Format.double
  match dropWord? "inf".toList cs, dropWord? "nan".toList cs, leadingNumeral? cs with
  | some rest, _, _ =>
    some { negative, size := double.infinity, rest := (dropWord? "inity".toList rest).getD rest }
  | _, some rest, _ => some { negative, size := double.quietNaN, rest := dropCode rest }
  | _, _, some (n, rest) =>
    some { negative, size := n.encode double, rest, inRange := inDoubleRange n }
  | none, none, none => none

/-- The first byte of a text after a quote, zero if there is none. -/
def quoted? : List Char → Option Nat
  | q :: cs =>
    if q = '\'' || q = '"' then some ((Bytes.ofChars cs).headD 0).toNat else none
  | [] => none

/-- What is wrong with a text that starts with a number, or does not. -/
def misfit? (cs : List Char) : Option Leading → Option Misfit
  | none => if cs.isEmpty then none else some .notNumeric
  | some n =>
    if !n.rest.isEmpty then some .followed
    else if n.inRange then none
    else some .outOfRange

def signedWord (cs : List Char) : Int × Option Misfit :=
  match quoted? cs with
  | some b => (b, none)
  | none =>
    let bound (negative : Bool) : Nat :=
      if negative then 9223372036854775808 else 9223372036854775807
    let n? := (leadingInteger? cs).map fun n => { n with inRange := n.size ≤ bound n.negative }
    let value : Int :=
      match n? with
      | none => 0
      | some n =>
        let size := min n.size (bound n.negative)
        if n.negative then -size else size
    (value, misfit? cs n?)

/-- The number of an argument that is an unsigned word; a negative one counts from the upper end. -/
def unsignedWord (cs : List Char) : Nat × Option Misfit :=
  match quoted? cs with
  | some b => (b, none)
  | none =>
    let bound := 18446744073709551615
    let n? := (leadingInteger? cs).map fun n => { n with inRange := n.size ≤ bound }
    let value : Nat :=
      match n? with
      | none => 0
      | some n =>
        if n.size ≤ bound && n.negative then (bound + 1 - n.size) % (bound + 1)
        else min n.size bound
    (value, misfit? cs n?)

def double (cs : List Char) : Nat × Option Misfit :=
  match quoted? cs with
  | some b => (Real.Format.double.encode b 1, none)
  | none =>
    let n? := leadingReal? cs
    let bits : Nat :=
      match n? with
      | none => 0
      | some n => Real.Format.double.signBit n.negative + n.size
    (bits, misfit? cs n?)

end NativeCode.Shell.Format
