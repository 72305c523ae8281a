import NativeCode.Word

/-!
# Registers

The sixteen general-purpose and the sixteen vector registers, with the names of their parts.
-/

namespace NativeCode.Machine

inductive RegClass where
  | gpr
  | xmm
  deriving DecidableEq, Inhabited

def RegClass.name : RegClass → String
  | gpr => "gpr"
  | xmm => "xmm"

inductive Gpr where
  | rax
  | rbx
  | rcx
  | rdx
  | rsi
  | rdi
  | r8
  | r9
  | r10
  | r11
  | r12
  | r13
  | r14
  | r15
  | rbp
  | rsp
  deriving DecidableEq, Inhabited

namespace Gpr

def all : List Gpr :=
  [rax, rbx, rcx, rdx, rsi, rdi, r8, r9, r10, r11, r12, r13, r14, r15, rbp, rsp]

def name : Gpr → String
  | rax => "rax"
  | rbx => "rbx"
  | rcx => "rcx"
  | rdx => "rdx"
  | rsi => "rsi"
  | rdi => "rdi"
  | r8 => "r8"
  | r9 => "r9"
  | r10 => "r10"
  | r11 => "r11"
  | r12 => "r12"
  | r13 => "r13"
  | r14 => "r14"
  | r15 => "r15"
  | rbp => "rbp"
  | rsp => "rsp"

def longName : Gpr → String
  | rax => "eax"
  | rbx => "ebx"
  | rcx => "ecx"
  | rdx => "edx"
  | rsi => "esi"
  | rdi => "edi"
  | rbp => "ebp"
  | rsp => "esp"
  | r => r.name ++ "d"

def wordName : Gpr → String
  | rax => "ax"
  | rbx => "bx"
  | rcx => "cx"
  | rdx => "dx"
  | rsi => "si"
  | rdi => "di"
  | rbp => "bp"
  | rsp => "sp"
  | r => r.name ++ "w"

def byteName : Gpr → String
  | rax => "al"
  | rbx => "bl"
  | rcx => "cl"
  | rdx => "dl"
  | rsi => "sil"
  | rdi => "dil"
  | rbp => "bpl"
  | rsp => "spl"
  | r => r.name ++ "b"

def partName (r : Gpr) : Width → String
  | .byte => r.byteName
  | .word => r.wordName
  | .long => r.longName
  | .quad => r.name

theorem mem_all (r : Gpr) : r ∈ all := by cases r <;> decide

end Gpr

inductive PhysReg where
  | gpr (r : Gpr)
  | xmm (index : Fin 16)
  deriving DecidableEq, Inhabited

namespace PhysReg

def cls : PhysReg → RegClass
  | gpr _ => .gpr
  | xmm _ => .xmm

def all : List PhysReg := Gpr.all.map gpr ++ (List.finRange 16).map xmm

def name : PhysReg → String
  | gpr r => r.name
  | xmm i => s!"xmm{i.val}"

def ofName? (text : String) : Option PhysReg := all.find? (·.name == text)

/-- The printed form of the low part of a register; vector registers have only one name. -/
def text (w : Width) : PhysReg → String
  | gpr r => "%" ++ r.partName w
  | xmm i => s!"%xmm{i.val}"

end PhysReg

end NativeCode.Machine
