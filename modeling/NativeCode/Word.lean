/-!
# Machine words, operand widths and float precisions

The vocabulary shared by the intermediate representation and the machine: 64-bit words, the four
widths an integer instruction can work at, and the two float precisions.
-/

namespace NativeCode

abbrev Word := BitVec 64

/-- The operand widths of integer instructions. -/
inductive Width where
  | byte
  | word
  | long
  | quad
  deriving DecidableEq, Inhabited

namespace Width

def bytes : Width → Nat
  | byte => 1
  | word => 2
  | long => 4
  | quad => 8

def bits (w : Width) : Nat := 8 * w.bytes

/-- The width of `n` bytes; every size other than one, two and four counts as eight. -/
def ofBytes : Nat → Width
  | 1 => byte
  | 2 => word
  | 4 => long
  | _ => quad

/-- The low bits of a word at this width, sign-extended back to 64 bits. -/
def signExtend (w : Width) (v : Word) : Word := (v.setWidth w.bits).signExtend 64

@[simp] theorem ofBytes_bytes (w : Width) : ofBytes w.bytes = w := by cases w <;> rfl

end Width

inductive Precision where
  | single
  | double
  deriving DecidableEq, Inhabited

def Precision.bytes : Precision → Nat
  | .single => 4
  | .double => 8

/-- A word that a sign-extended 32-bit immediate field can hold. -/
def fitsImm32 (v : Word) : Bool :=
  decide (-2147483648 ≤ v.toInt) && decide (v.toInt ≤ 2147483647)

end NativeCode
