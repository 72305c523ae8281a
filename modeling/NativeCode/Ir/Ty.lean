import NativeCode.Text.Numeral

/-!
# Types of the intermediate representation

Values are integers of four widths, booleans, pointers and floats. Arrays and structs are opaque
blocks of bytes that only storage can have, and `void` is the type of nothing.
-/

namespace NativeCode.Ir

inductive Ty where
  | int (signed : Bool) (width : Width)
  | bool
  | float (p : Precision)
  | ptr
  | void
  | array (bytes : Nat)
  | struct (bytes : Nat)
  deriving DecidableEq, Inhabited

namespace Ty

abbrev i64 : Ty := .int true .quad

/-- The types whose values travel in general-purpose registers. -/
def isInteger : Ty → Bool
  | int _ _ | bool | ptr => true
  | _ => false

/-- The types whose values travel in vector registers. -/
def isFloat : Ty → Bool
  | float _ => true
  | _ => false

/-- Signed integers; booleans and pointers are unsigned. -/
def isSigned : Ty → Bool
  | int signed _ => signed
  | _ => false

def isAggregate : Ty → Bool
  | array _ | struct _ => true
  | _ => false

def isVoid : Ty → Bool
  | void => true
  | _ => false

def size : Ty → Nat
  | int _ w => w.bytes
  | bool => 1
  | float p => p.bytes
  | ptr => 8
  | void => 0
  | array n | struct n => n

def name : Ty → String
  | int signed w => (if signed then "i" else "u") ++ toString w.bits
  | bool => "bool"
  | float .single => "f32"
  | float .double => "f64"
  | ptr => "ptr"
  | void => "void"
  | array n => s!"array<{n}>"
  | struct n => s!"struct<{n}>"

def scalars : List Ty :=
  [int true .byte, int true .word, int true .long, int true .quad,
    int false .byte, int false .word, int false .long, int false .quad,
    bool, float .single, float .double, ptr, void]

/-- The size in the text after the opening bracket: an index followed by the closing one. -/
def bracketed? (cs : List Char) : Option Nat :=
  match cs.reverse with
  | '>' :: ds => Text.index? ds.reverse
  | _ => none

def sizeAfter? (head : String) (cs : List Char) : Option Nat :=
  if head.toList.isPrefixOf cs then bracketed? (cs.drop head.length) else none

/-- The type with a written form; the size of an aggregate is positive. -/
def ofName? (text : String) : Option Ty :=
  match scalars.find? (·.name == text) with
  | some ty => some ty
  | none =>
    match sizeAfter? "array<" text.toList, sizeAfter? "struct<" text.toList with
    | some n, _ => if n = 0 then none else some (.array n)
    | none, some n => if n = 0 then none else some (.struct n)
    | none, none => none

/-- Whether the signed value of a literal is in the range of a type. Only the narrow integers and
booleans have a range to check. -/
def holds (ty : Ty) (v : Word) : Bool :=
  match ty with
  | int true .byte => decide (-128 ≤ v.toInt) && decide (v.toInt ≤ 127)
  | int true .word => decide (-32768 ≤ v.toInt) && decide (v.toInt ≤ 32767)
  | int true .long => decide (-2147483648 ≤ v.toInt) && decide (v.toInt ≤ 2147483647)
  | int false .byte => decide (0 ≤ v.toInt) && decide (v.toInt ≤ 255)
  | int false .word => decide (0 ≤ v.toInt) && decide (v.toInt ≤ 65535)
  | int false .long => decide (0 ≤ v.toInt) && decide (v.toInt ≤ 4294967295)
  | bool => decide (v.toInt = 0) || decide (v.toInt = 1)
  | _ => true

theorem isFloat_eq_false_of_isInteger {ty : Ty} (h : ty.isInteger = true) : ty.isFloat = false := by
  cases ty <;> simp_all [isInteger, isFloat]

end Ty

end NativeCode.Ir
