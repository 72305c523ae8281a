import NativeCode.Machine.Register

/-!
# Calling conventions

A calling convention fixes which registers carry parameters and results, which ones a callee has to
keep, and how the stack is laid out. The two conventions are System V and Windows x64.
-/

namespace NativeCode.Abi

open NativeCode.Machine

inductive Convention where
  | sysv
  | win64
  deriving DecidableEq, Inhabited

namespace Convention

def name : Convention → String
  | sysv => "sysv"
  | win64 => "win64"

def ofName? (text : String) : Option Convention :=
  if text = "sysv" then some sysv else if text = "win64" then some win64 else none

end Convention

def slotBytes : Int := 8

/-- What a convention fixes. Register lists are in order of preference. -/
structure Target where
  convention : Convention
  /-- Registers of integer parameters. -/
  intArgs : List PhysReg
  /-- Registers of float parameters. -/
  floatArgs : List PhysReg
  /-- Whether both kinds of parameter count along one index. -/
  sharedIndex : Bool
  volatileGpr : List PhysReg
  volatileXmm : List PhysReg
  /-- General-purpose registers that a callee keeps. -/
  keptGpr : List PhysReg
  /-- Vector registers that a callee keeps. -/
  keptXmm : List PhysReg
  /-- General-purpose registers for temporaries. -/
  tempGpr : List PhysReg
  /-- Vector registers for temporaries. -/
  tempXmm : List PhysReg
  intResult : PhysReg := .gpr .rax
  floatResult : PhysReg := .xmm 0
  /-- Alignment of the stack at calls. -/
  alignment : Int := 16
  /-- Bytes below the stack pointer that signal handlers leave alone. -/
  redZone : Option Int := none
  /-- Bytes a caller reserves for the register parameters of its callee. -/
  shadowSpace : Int := 0
  needsFramePointer : Bool := false
  deriving DecidableEq

/-- System V: six integer and eight float registers, counted apart, and a red zone. -/
def sysv : Target where
  convention := .sysv
  intArgs := [.gpr .rdi, .gpr .rsi, .gpr .rdx, .gpr .rcx, .gpr .r8, .gpr .r9]
  floatArgs := [.xmm 0, .xmm 1, .xmm 2, .xmm 3, .xmm 4, .xmm 5, .xmm 6, .xmm 7]
  sharedIndex := false
  volatileGpr :=
    [.gpr .rax, .gpr .rcx, .gpr .rdx, .gpr .rsi, .gpr .rdi, .gpr .r8, .gpr .r9, .gpr .r10,
      .gpr .r11]
  volatileXmm :=
    [.xmm 0, .xmm 1, .xmm 2, .xmm 3, .xmm 4, .xmm 5, .xmm 6, .xmm 7,
      .xmm 8, .xmm 9, .xmm 10, .xmm 11, .xmm 12, .xmm 13, .xmm 14, .xmm 15]
  keptGpr := [.gpr .rbx, .gpr .rbp, .gpr .r12, .gpr .r13, .gpr .r14, .gpr .r15]
  keptXmm := []
  tempGpr := [.gpr .r10, .gpr .r11, .gpr .rbx, .gpr .r12, .gpr .r13, .gpr .r14, .gpr .r15]
  tempXmm := [.xmm 8, .xmm 9, .xmm 10, .xmm 11, .xmm 12, .xmm 13, .xmm 14, .xmm 15]
  redZone := some 128

/-- Windows x64: four positions shared by both kinds of parameter, and shadow space. The temporaries
leave out the vector registers that a callee keeps, because a frame has no room to save them. -/
def win64 : Target where
  convention := .win64
  intArgs := [.gpr .rcx, .gpr .rdx, .gpr .r8, .gpr .r9]
  floatArgs := [.xmm 0, .xmm 1, .xmm 2, .xmm 3]
  sharedIndex := true
  volatileGpr := [.gpr .rax, .gpr .rcx, .gpr .rdx, .gpr .r8, .gpr .r9, .gpr .r10, .gpr .r11]
  volatileXmm := [.xmm 0, .xmm 1, .xmm 2, .xmm 3, .xmm 4, .xmm 5]
  keptGpr :=
    [.gpr .rbx, .gpr .rbp, .gpr .rdi, .gpr .rsi, .gpr .r12, .gpr .r13, .gpr .r14, .gpr .r15]
  keptXmm :=
    [.xmm 6, .xmm 7, .xmm 8, .xmm 9, .xmm 10, .xmm 11, .xmm 12, .xmm 13, .xmm 14, .xmm 15]
  tempGpr :=
    [.gpr .r10, .gpr .r11, .gpr .rbx, .gpr .rsi, .gpr .rdi, .gpr .r12, .gpr .r13, .gpr .r14,
      .gpr .r15]
  tempXmm := [.xmm 4, .xmm 5]
  shadowSpace := 32

def Convention.target : Convention → Target
  | .sysv => Abi.sysv
  | .win64 => Abi.win64

namespace Target

def args (t : Target) : RegClass → List PhysReg
  | .gpr => t.intArgs
  | .xmm => t.floatArgs

def pool (t : Target) : RegClass → List PhysReg
  | .gpr => t.tempGpr
  | .xmm => t.tempXmm

def keeps (t : Target) (r : PhysReg) : Bool :=
  match r.cls with
  | .gpr => t.keptGpr.contains r
  | .xmm => t.keptXmm.contains r

/-- The register that a result of a class comes back in. -/
def result (t : Target) : RegClass → PhysReg
  | .gpr => t.intResult
  | .xmm => t.floatResult

end Target

end NativeCode.Abi
