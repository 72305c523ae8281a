import NativeCode.Options
import NativeCode.Machine.Printer
import NativeCode.Selection.Session

/-!
# Emitting code for one construct

Code for one instruction or terminator is emitted into the open block. Operands are read from their
residences, as a single memory or immediate source where the machine allows it and through a
temporary otherwise, so that no instruction has two memory operands. Integers in homes are extended
to 64 bits by their type.
-/

namespace NativeCode.Selection

open NativeCode.Ir (Ty)
open NativeCode.Machine
open NativeCode.Source (Loc)

/-- The construct that is compiled: its place, and whether it is a comparison whose result stays in
the flags. -/
structure Site where
  options : Options
  origin : Loc := {}
  flagsOnly : Bool := false
  deriving Inhabited

abbrev Emit := ReaderT Site (StateT Session (Except Failure))

def stop {α : Type} (cause : Cause) (construct : String := "") : Emit α :=
  throw { cause, construct }

def stopHere {α : Type} (cause : Cause) (construct : String) : Emit α := do
  throw { cause, construct, loc := (← read).origin }

def emit (op : Opcode) (operands : List Operand := []) (comment : String := "") : Emit Unit := do
  let origin := (← read).origin
  modify fun s => { s with code := s.code.push { op, operands, comment, origin } }

def newTemp (cls : RegClass) : Emit Reg := do
  let target := (← read).options.target
  let temps ← modifyGet fun s => (s.temps, { s with temps := {} })
  let (id, temps) ← temps.issue target cls
  modify fun s => { s with temps }
  return .temp id cls

/-- Where an operand comes from: the address of a symbol, or a residence. -/
inductive Reach where
  | symbol (name : String)
  | residence (r : Residence)
  deriving DecidableEq, Inhabited

def reach : Ir.Operand → Emit Reach
  | .value id => do return .residence (← (← get).value id)
  | .param index => do return .residence (← (← get).param index)
  | .const ty bits => return .residence { access := .constant, ty, bits }
  | .global name => return .symbol name

def typeOf (o : Ir.Operand) : Emit Ty := do
  match ← reach o with
  | .symbol _ => return .ptr
  | .residence r => return r.ty

def constantValue (o : Ir.Operand) : Emit (Option Word) := do
  match ← reach o with
  | .symbol _ => return none
  | .residence r => return if r.access = .constant then some r.bits else none

/-- The move of scalar floats of a type; types other than `f32` are moved as doubles. -/
def floatMove : Ty → Opcode
  | .float .single => .movs .single
  | _ => .movs .double

/-- Extends a register in place from the width of a type; there is nothing to do for full-width
types. -/
def extendInPlace (r : RegOperand) : Ty → Option Instr
  | .int true .byte => some { op := .movsb, operands := [.part r.reg .byte, .reg r] }
  | .int true .word => some { op := .movsw, operands := [.part r.reg .word, .reg r] }
  | .int true .long => some { op := .movsl, operands := [.part r.reg .long, .reg r] }
  | .int false .byte | .bool => some { op := .movzb, operands := [.part r.reg .byte, .reg r] }
  | .int false .word => some { op := .movzw, operands := [.part r.reg .word, .reg r] }
  | .int false .long =>
    some { op := .mov .long, operands := [.part r.reg .long, .part r.reg .long] }
  | _ => none

/-- Loads an integer of a type from memory, extended to 64 bits. Writing four bytes of a register
clears the rest. -/
def extendingLoad (src : Operand) (dst : RegOperand) : Ty → Instr
  | .int true .byte => { op := .movsb, operands := [src, .reg dst] }
  | .int false .byte | .bool => { op := .movzb, operands := [src, .reg dst] }
  | .int true .word => { op := .movsw, operands := [src, .reg dst] }
  | .int false .word => { op := .movzw, operands := [src, .reg dst] }
  | .int true .long => { op := .movsl, operands := [src, .reg dst] }
  | .int false .long => { op := .mov .long, operands := [src, .part dst.reg .long] }
  | _ => { op := .mov .quad, operands := [src, .reg dst] }

def loadGprInto (o : Ir.Operand) (dst : RegOperand) : Emit Unit := do
  match ← reach o with
  | .symbol name =>
    let sym ← (← get).symbols.data name
    emit .lea [.rip sym.asm, .reg dst]
  | .residence r =>
    match r.access with
    | .home => emit (.mov .quad) [.slot r.disp, .reg dst]
    | .address => emit .lea [.slot r.disp, .reg dst]
    | .constant => emit (if fitsImm32 r.bits then .mov .quad else .movabs) [.imm r.bits, .reg dst]

/-- Copies an operand into a new general-purpose temporary. -/
def loadGpr (o : Ir.Operand) : Emit Reg := do
  let t ← newTemp .gpr
  loadGprInto o { reg := t }
  return t

/-- Copies a float into a vector register. Literals pass through a general-purpose temporary as bit
patterns. -/
def loadXmmInto (o : Ir.Operand) (dst : RegOperand) : Emit Unit := do
  let ty ← typeOf o
  unless ty.isFloat do stopHere (.notFloat o ty) o.text
  match ← reach o with
  | .residence { access := .home, disp, .. } => emit (floatMove ty) [.slot disp, .reg dst]
  | _ =>
    let bits ← loadGpr o
    emit (.mov .quad) [.full bits, .reg dst]

def loadXmm (o : Ir.Operand) : Emit Reg := do
  let t ← newTemp .xmm
  loadXmmInto o { reg := t }
  return t

/-- An operand as a 64-bit source: its home, a short immediate, or a temporary. -/
def gprSource (o : Ir.Operand) : Emit Operand := do
  match ← reach o with
  | .residence { access := .home, disp, .. } => return .slot disp
  | .residence { access := .constant, bits, .. } =>
    if fitsImm32 bits then return .imm bits
    return .full (← loadGpr o)
  | _ => return .full (← loadGpr o)

/-- A float as the source of a scalar instruction: its home, or a temporary. -/
def xmmSource (o : Ir.Operand) : Emit Operand := do
  match ← reach o with
  | .residence { access := .home, disp, .. } => return .slot disp
  | _ => return .full (← loadXmm o)

def addressOf (o : Ir.Operand) : Emit Operand := do
  let ty ← typeOf o
  unless ty = .ptr do stopHere (.notAddress o ty) o.text
  match ← reach o with
  | .symbol name => return .rip (← (← get).symbols.data name).asm
  | .residence { access := .address, disp, .. } => return .slot disp
  | _ => return .offset (← loadGpr o) 0

def allocate (bytes : Nat) : Emit Int := do
  let (disp, s) ← (← get).allocate bytes
  set s
  return disp

/-- Gives the result of an instruction a home for a value of type `ty`. -/
def defineHome (i : Ir.Instr) (ty : Ty) : Emit Operand := do
  match i.result with
  | none => stopHere .resultUnnamed i.text
  | some id =>
    let disp ← allocate 8
    modify (·.setValue id { access := .home, ty, disp })
    return .slot disp

/-- Extends a register in place from the width of a type. -/
def normalize (r : Reg) (ty : Ty) : Emit Unit :=
  match extendInPlace { reg := r } ty with
  | some i => emit i.op i.operands
  | none => pure ()

/-- Stores a general-purpose register, extended by `ty`, as the result of an instruction. -/
def storeGpr (i : Ir.Instr) (r : Reg) (ty : Ty) : Emit Unit := do
  normalize r ty
  let home ← defineHome i ty
  emit (.mov .quad) [.full r, home]

/-- Stores a vector register as the result of an instruction. -/
def storeXmm (i : Ir.Instr) (r : Reg) (ty : Ty) : Emit Unit := do
  let home ← defineHome i ty
  emit (floatMove ty) [.full r, home]

end NativeCode.Selection
