import NativeCode.Selection.Emit

/-!
# Code for loads, stores, allocations and constants

Loads extend integers by their type, stores write exactly the bytes of the type. Allocations and
constants take no code: they only fix a residence.
-/

namespace NativeCode.Selection

open NativeCode.Ir (Ty)
open NativeCode.Machine

def requireScalar (i : Ir.Instr) : Emit Unit := do
  if i.ty.isAggregate || i.ty.isVoid then stopHere (.notMovable i.ty) i.text

def load (i : Ir.Instr) : Emit Unit := do
  match i.operands with
  | [pointer] =>
    requireScalar i
    let src ← addressOf pointer
    if i.ty.isFloat then
      let value ← newTemp .xmm
      emit (floatMove i.ty) [src, .full value]
      storeXmm i value i.ty
    else
      let value ← newTemp .gpr
      let extending := extendingLoad src { reg := value } i.ty
      emit extending.op extending.operands
      let home ← defineHome i i.ty
      emit (.mov .quad) [.full value, home]
  | os => stopHere (.arity 1 os.length) i.text

/-- The source of an integer store of a width: an immediate if the truncated value is short enough,
else the low part of a temporary. -/
def storeSource (value : Ir.Operand) (w : Width) : Emit Operand := do
  match ← constantValue value with
  | some bits =>
    if fitsImm32 (w.signExtend bits) then return .imm (w.signExtend bits)
    return .part (← loadGpr value) w
  | none => return .part (← loadGpr value) w

def store (i : Ir.Instr) : Emit Unit := do
  match i.operands with
  | [value, pointer] =>
    requireScalar i
    if (← typeOf value).regClass ≠ i.ty.regClass then stopHere (.storedMismatch value i.ty) i.text
    if i.ty.isFloat then
      let src ← loadXmm value
      let dst ← addressOf pointer
      emit (floatMove i.ty) [.full src, dst]
    else
      let w := Width.ofBytes i.ty.size
      let src ← storeSource value w
      let dst ← addressOf pointer
      emit (.mov w) [src, dst]
  | os => stopHere (.arity 2 os.length) i.text

/-- An allocation in the frame; its result is the address. -/
def alloca (i : Ir.Instr) : Emit Unit := do
  if i.ty.isVoid then stopHere .notAllocatable i.text
  match i.result with
  | none => stopHere .allocaUnnamed i.text
  | some id =>
    let disp ← allocate i.ty.size
    modify (·.setValue id { access := .address, ty := .ptr, disp })

def constant (i : Ir.Instr) : Emit Unit := do
  match i.operands with
  | [literal] =>
    requireScalar i
    match i.result with
    | none => stopHere .constUnnamed i.text
    | some id =>
      match ← constantValue literal with
      | none => stopHere (.notLiteral literal) i.text
      | some bits => modify (·.setValue id { access := .constant, ty := i.ty, bits })
  | os => stopHere (.arity 1 os.length) i.text

end NativeCode.Selection
