import NativeCode.Failure
import NativeCode.Machine.Instr

/-!
# Temporaries

A temporary is bound to a physical register when it is issued, the first register of its class's
pool that no live temporary holds. All temporaries die together when the instruction they were
issued for is done. Numbers are not used again within a function, and there are at most 65535 of
them.
-/

namespace NativeCode

open NativeCode.Abi
open NativeCode.Machine

structure Temps where
  /-- The register of each temporary, by its number. -/
  regs : Array PhysReg := #[]
  /-- The numbers of the live temporaries. -/
  live : List Nat := []
  deriving DecidableEq, Inhabited

namespace Temps

def limit : Nat := 65535

def count (t : Temps) : Nat := t.regs.size

def holds (t : Temps) (r : PhysReg) : Bool := t.live.any fun id => t.regs[id]? == some r

def isLive (t : Temps) (id : Nat) : Bool := t.live.contains id

/-- The first register of a class that no live temporary holds. -/
def free? (t : Temps) (target : Target) (cls : RegClass) : Option PhysReg :=
  (target.pool cls).find? fun r => !t.holds r

/-- Issues a temporary of a class and gives its number. -/
def issue (t : Temps) (target : Target) (cls : RegClass) : Except Failure (Nat × Temps) :=
  if limit ≤ t.count then fail .temporariesExhausted
  else
    match t.free? target cls with
    | none => fail (.noFreeRegister cls)
    | some r =>
      let ⟨regs, live⟩ := t
      let id := regs.size
      .ok (id, { regs := regs.push r, live := live ++ [id] })

def release (t : Temps) : Temps := { t with live := [] }

def reg (t : Temps) (id : Nat) : Except Failure PhysReg :=
  match t.regs[id]? with
  | some r => .ok r
  | none => fail (.temporaryUnknown id)

/-- The registers kept by a callee that some temporary has used, in the order of the pools. -/
def saved (t : Temps) (target : Target) : List PhysReg :=
  (target.tempGpr ++ target.tempXmm).filter fun r => target.keeps r && t.regs.contains r

/-- A register with a temporary replaced by its register. -/
def bindReg (t : Temps) : Reg → Except Failure Reg
  | .phys r => .ok (.phys r)
  | .temp id _ => .phys <$> t.reg id

def bindOperand (t : Temps) : Operand → Except Failure Operand
  | .reg r => do return .reg { r with reg := ← t.bindReg r.reg }
  | .mem m => do
    let base ← t.bindReg m.base
    match m.index with
    | none => return .mem { m with base }
    | some (r, scale) => return .mem { m with base, index := some (← t.bindReg r, scale) }
  | o => .ok o

def bindInstr (t : Temps) (i : Instr) : Except Failure Instr := do
  return { i with operands := ← i.operands.mapM t.bindOperand }

def bindBlock (t : Temps) (b : Block) : Except Failure Block := do
  return { b with code := ← b.code.mapM t.bindInstr }

/-- A function with every temporary replaced by its register. -/
def bind (t : Temps) (f : Function) : Except Failure Function := do
  let prologue ← f.prologue.mapM t.bindInstr
  let blocks ← f.blocks.mapM t.bindBlock
  let epilogue ← f.epilogue.mapM t.bindInstr
  return { f with prologue, blocks, epilogue }

end Temps

end NativeCode
