import NativeCode.Failure

/-!
# Placing parameters

Each parameter of a call travels in a register or in a stack slot at an offset from the stack
pointer at the call. Under System V integers and floats count their registers apart and the rest is
packed from offset zero; under Windows x64 position `i` has the `i`-th register of its class or the
slot at `8 * i`.
-/

namespace NativeCode

open NativeCode.Machine

def Ir.Ty.regClass (ty : Ir.Ty) : RegClass := if ty.isFloat then .xmm else .gpr

end NativeCode

namespace NativeCode.Abi

open NativeCode.Ir (Ty)
open NativeCode.Machine

/-- A register, or a slot at an offset from the stack pointer at the call. -/
inductive Place where
  | register (r : PhysReg)
  | stack (offset : Int)
  deriving DecidableEq, Inhabited

/-- Where a parameter travels, and the class its value belongs to. -/
structure Placement where
  cls : RegClass
  place : Place
  deriving DecidableEq, Inhabited

/-- How many registers of each class and how many stack slots have been used. -/
structure Used where
  gpr : Nat := 0
  xmm : Nat := 0
  slots : Nat := 0
  deriving DecidableEq, Inhabited

namespace Used

def count (u : Used) : RegClass → Nat
  | .gpr => u.gpr
  | .xmm => u.xmm

def step (u : Used) : RegClass → Used
  | .gpr => { u with gpr := u.gpr + 1 }
  | .xmm => { u with xmm := u.xmm + 1 }

end Used

namespace Target

def arg? (t : Target) (cls : RegClass) (index : Nat) : Option PhysReg := (t.args cls)[index]?

/-- Placement with a register count for each class; the rest is packed on the stack. -/
def assignApart (t : Target) (u : Used) : List Ty → List Placement
  | [] => []
  | ty :: tys =>
    let cls := ty.regClass
    match t.arg? cls (u.count cls) with
    | some r => ⟨cls, .register r⟩ :: t.assignApart (u.step cls) tys
    | none =>
      ⟨cls, .stack (u.slots * slotBytes)⟩ ::
        t.assignApart { u.step cls with slots := u.slots + 1 } tys

def assignShared (t : Target) (index : Nat) : List Ty → List Placement
  | [] => []
  | ty :: tys =>
    let cls := ty.regClass
    let place : Place :=
      match t.arg? cls index with
      | some r => .register r
      | none => .stack (index * slotBytes)
    ⟨cls, place⟩ :: t.assignShared (index + 1) tys

def assign (t : Target) (tys : List Ty) : List Placement :=
  if t.sharedIndex then t.assignShared 0 tys else t.assignApart {} tys

/-- The first type that has no way to be passed fails, with its position. -/
def checkPassable (t : Target) (index : Nat) : List Ty → Except Failure Unit
  | [] => .ok ()
  | ty :: tys =>
    if ty.isVoid || ty.isAggregate then fail (.notPassable index ty t.convention) ty.name
    else t.checkPassable (index + 1) tys

/-- A placement of one parameter respects the convention: its class is that of the type, a slot is
aligned and a register is one of the parameter registers of the class. -/
def checkPlacement (t : Target) (index : Nat) (ty : Ty) (p : Placement) : Except Failure Unit :=
  if p.cls ≠ ty.regClass then fail (.placementClass index)
  else
    match p.place with
    | .stack offset =>
      if offset < 0 ∨ offset % slotBytes ≠ 0 then fail (.placementMisaligned index offset)
      else .ok ()
    | .register r =>
      if (t.args p.cls).contains r then .ok () else fail (.placementRegister index r)

def checkEach (t : Target) (index : Nat) : List Ty → List Placement → Except Failure Unit
  | ty :: tys, p :: ps => do
    t.checkPlacement index ty p
    t.checkEach (index + 1) tys ps
  | _, _ => .ok ()

/-- A proposed placement of parameters, if it respects the convention. -/
def check (t : Target) (tys : List Ty) (ps : List Placement) : Except Failure (List Placement) := do
  t.checkPassable 0 tys
  if ps.length ≠ tys.length then fail (.placementCount ps.length tys.length)
  t.checkEach 0 tys ps
  return ps

def place (t : Target) (tys : List Ty) : Except Failure (List Placement) :=
  t.check tys (t.assign tys)

/-- Bytes of stack that a placement needs at the stack pointer, shadow space included. -/
def outgoingBytes (t : Target) (ps : List Placement) : Int :=
  ps.foldl (fun bytes p =>
    match p.place with
    | .stack offset => max bytes (offset + slotBytes)
    | .register _ => bytes) t.shadowSpace

end Target

end NativeCode.Abi
