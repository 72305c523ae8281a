import NativeCode.Source.Loc
import NativeCode.Machine.Register

/-!
# Machine instructions

Instructions name an operation and its operands, sources first. Registers are physical or
temporaries; temporaries are replaced by physical registers once a function has been compiled.
-/

namespace NativeCode.Machine

open NativeCode.Source (Loc)

inductive Cond where
  | e
  | ne
  | l
  | le
  | g
  | ge
  | b
  | be
  | a
  | ae
  | p
  | np
  deriving DecidableEq, Inhabited

namespace Cond

def suffix : Cond → String
  | e => "e"
  | ne => "ne"
  | l => "l"
  | le => "le"
  | g => "g"
  | ge => "ge"
  | b => "b"
  | be => "be"
  | a => "a"
  | ae => "ae"
  | p => "p"
  | np => "np"

/-- The condition that holds exactly when this one does not. -/
def invert : Cond → Cond
  | e => ne
  | ne => e
  | l => ge
  | ge => l
  | le => g
  | g => le
  | b => ae
  | ae => b
  | be => a
  | a => be
  | p => np
  | np => p

def all : List Cond := [e, ne, l, le, g, ge, b, be, a, ae, p, np]

def ofSuffix? (text : String) : Option Cond := all.find? (·.suffix == text)

@[simp] theorem invert_invert (c : Cond) : c.invert.invert = c := by cases c <;> rfl

end Cond

/-- A register of an instruction: a physical one, or a temporary of a class. -/
inductive Reg where
  | phys (r : PhysReg)
  | temp (id : Nat) (cls : RegClass)
  deriving DecidableEq, Inhabited

namespace Reg

abbrev ofGpr (r : Gpr) : Reg := .phys (.gpr r)

def cls : Reg → RegClass
  | phys r => r.cls
  | temp _ c => c

end Reg

structure RegOperand where
  reg : Reg
  width : Width := .quad
  deriving DecidableEq, Inhabited

/-- A memory operand: base, displacement, and a scaled index if there is one. -/
structure Mem where
  base : Reg
  disp : Int := 0
  index : Option (Reg × Nat) := none
  deriving DecidableEq, Inhabited

inductive Operand where
  | reg (r : RegOperand)
  | imm (v : Word)
  | mem (m : Mem)
  | label (name : String)
  | symbol (name : String)
  /-- A symbol addressed relative to the instruction pointer. -/
  | rip (name : String)
  deriving DecidableEq, Inhabited

namespace Operand

abbrev full (r : Reg) : Operand := .reg { reg := r }

abbrev part (r : Reg) (w : Width) : Operand := .reg { reg := r, width := w }

abbrev gpr (r : Gpr) : Operand := .full (.ofGpr r)

/-- The memory at a displacement from a register. -/
abbrev offset (base : Reg) (disp : Int) : Operand := .mem { base, disp }

/-- The frame slot at a displacement from the frame pointer. -/
abbrev slot (disp : Int) : Operand := .offset (.ofGpr .rbp) disp

end Operand

/-- The 64-bit operations that combine two operands into the second. -/
inductive AluOp where
  | add
  | sub
  | imul
  | and
  | or
  | xor
  deriving DecidableEq, Inhabited

inductive ShiftOp where
  | shl
  | shr
  | sar
  deriving DecidableEq, Inhabited

inductive FloatOp where
  | add
  | sub
  | mul
  | div
  deriving DecidableEq, Inhabited

inductive Opcode where
  /-- Integer move of a width. -/
  | mov (w : Width)
  /-- Move of a 64-bit immediate. -/
  | movabs
  | movzb
  | movzw
  | movsb
  | movsw
  | movsl
  | lea
  | alu (op : AluOp)
  /-- Exclusive or of four bytes; it clears the upper half of its target. -/
  | xorl
  | andb
  | orb
  | shift (op : ShiftOp)
  /-- Sign extension of `%rax` into `%rdx`. -/
  | cqto
  | div (signed : Bool)
  | cmp
  | set (c : Cond)
  | jmp
  | jcc (c : Cond)
  | call
  | ret
  | push
  | pop
  | ud2
  | float (op : FloatOp) (p : Precision)
  /-- Unordered float comparison. -/
  | ucomi (p : Precision)
  /-- Scalar float move. -/
  | movs (p : Precision)
  deriving DecidableEq, Inhabited

/-- An instruction, a comment on it, and the place in the source it was made for. -/
structure Instr where
  op : Opcode
  operands : List Operand := []
  comment : String := ""
  origin : Loc := {}
  deriving DecidableEq, Inhabited

structure Block where
  label : String
  code : List Instr := []
  deriving DecidableEq, Inhabited

/-- The code of a function. The epilogue is left out when its label is empty. -/
structure Function where
  name : String := "f"
  prologue : List Instr := []
  blocks : List Block := []
  epilogueLabel : String := ""
  epilogue : List Instr := []
  deriving DecidableEq, Inhabited

end NativeCode.Machine
