import NativeCode.Ir.Ty
import NativeCode.Real.Significant

/-!
# Operands of the intermediate representation

An operand is the result of an earlier instruction, a parameter, the address of a global, or a
literal. Literals are 64-bit words; a float literal holds its bit pattern.
-/

namespace NativeCode.Ir

inductive Operand where
  /-- The result with this number. -/
  | value (id : Nat)
  /-- The parameter at this position. -/
  | param (index : Nat)
  /-- The address of a global. -/
  | global (name : String)
  /-- A literal of a type. -/
  | const (ty : Ty) (bits : Word)
  deriving DecidableEq, Inhabited

namespace Operand

/-- The printed form of a literal: floats in six significant digits, all else as an integer. -/
def literalText (ty : Ty) (bits : Word) : String :=
  match ty with
  | .float .double => Real.text .double bits.toNat
  | .float .single => Real.text .single (bits.toNat % 4294967296)
  | _ => toString bits.toInt

/-- The printed form of an operand. Parameters are printed by position. -/
def text : Operand → String
  | value id => s!"%{id}"
  | param index => s!"%arg{index}"
  | global name => "@" ++ name
  | const ty bits => literalText ty bits

/-- The result that an operand reads, if it reads one. -/
def valueId? : Operand → Option Nat
  | value id => some id
  | _ => none

end Operand

end NativeCode.Ir
