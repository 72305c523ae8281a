import NativeCode.Selection.Emit

/-!
# Code for calls

Stack arguments are written first, then the argument registers are loaded, so that no argument
register is in use while temporaries are. The frame records the space that the call needs.
-/

namespace NativeCode.Selection

open NativeCode.Ir (Ty)
open NativeCode.Abi
open NativeCode.Machine

/-- Writes the arguments that travel on the stack, as raw eight-byte slots. -/
def stackArguments : List (Ir.Operand × Placement) → Emit Unit
  | [] => return ()
  | (o, p) :: rest => do
    match p.place with
    | .stack offset =>
      let slot ← loadGpr o
      emit (.mov .quad) [.full slot, .offset (.ofGpr .rsp) offset]
    | .register _ => pure ()
    stackArguments rest

def registerArguments : List (Ir.Operand × Placement) → Emit Unit
  | [] => return ()
  | (o, p) :: rest => do
    match p.place with
    | .register r =>
      match p.cls with
      | .xmm => loadXmmInto o { reg := .phys r }
      | .gpr => loadGprInto o { reg := .phys r }
    | .stack _ => pure ()
    registerArguments rest

/-- The function that a call names, which may be external. -/
def callee (name : String) : Emit String := do
  let s ← get
  let (sym, symbols) ← s.symbols.callee name
  set { s with symbols }
  return sym.asm

def callResult (i : Ir.Instr) (name : String) : Emit Unit := do
  let target := (← read).options.target
  if i.ty.isVoid then stopHere (.voidCallNamed name) i.text
  if i.ty.isAggregate then stopHere (.notReturnable i.ty) i.text
  if i.ty.isFloat then storeXmm i (.phys target.floatResult) i.ty
  else storeGpr i (.phys target.intResult) i.ty

def call (i : Ir.Instr) (name : String) : Emit Unit := do
  let target := (← read).options.target
  let asm ← callee name
  let tys ← i.operands.mapM typeOf
  let placements ← target.place tys
  let arguments := i.operands.zip placements
  stackArguments arguments
  registerArguments arguments
  emit .call [.symbol asm]
  modify fun s => { s with frame := s.frame.noteCall (target.outgoingBytes placements) }
  if i.result.isSome then callResult i name

end NativeCode.Selection
