import NativeCode.Abi.Placement
import NativeCode.Machine.Instr

/-!
# Stack frames

While a function is compiled its frame collects slots below the frame pointer and the space that
calls need for their arguments. The layout then fixes how much the stack pointer moves. Below the
saved frame pointer lie the locals, the pushed registers and the outgoing arguments, in that order.
-/

namespace NativeCode.Frame

open NativeCode.Abi
open NativeCode.Machine

/-- The next multiple of `align` at or above `value`. The remainder is the one of truncated
division. -/
def roundUp (value align : Int) : Int :=
  let r := value.tmod align
  if r = 0 then value else value + (align - r)

structure Needs where
  /-- Bytes of slots below the frame pointer. -/
  locals : Int := 0
  /-- Bytes that the neediest call takes for its arguments. -/
  outgoing : Int := 0
  hasCalls : Bool := false
  deriving DecidableEq, Inhabited

namespace Needs

/-- Reserves a slot of at least eight bytes, and gives its displacement from the frame pointer.
Displacements have to fit 32 bits. -/
def allocate (n : Needs) (bytes : Nat) : Except Failure (Int × Needs) :=
  let locals := n.locals + roundUp (max bytes slotBytes) slotBytes
  if 2147483647 < locals then fail (.localsTooLarge locals)
  else .ok (-locals, { n with locals })

/-- Records a call that needs `bytes` for its arguments. -/
def noteCall (n : Needs) (bytes : Int) : Needs :=
  { n with hasCalls := true, outgoing := max n.outgoing bytes }

end Needs

structure Layout where
  convention : Convention
  locals : Int
  /-- Bytes that the stack pointer moves for the locals; zero when they lie in the red zone. -/
  adjust : Int
  outgoing : Int
  /-- Registers that are pushed below the locals. -/
  saved : List PhysReg
  usesRedZone : Bool
  /-- Bytes below the saved frame pointer. -/
  size : Int
  deriving DecidableEq, Inhabited

namespace Needs

/-- Whether the locals can stay below an unmoved stack pointer: there is a red zone, it is large
enough, and neither a call nor a push writes there. -/
def fitsRedZone (n : Needs) (t : Target) (saved : List PhysReg) : Bool :=
  match t.redZone with
  | some bytes => !n.hasCalls && saved.isEmpty && decide (n.locals ≤ bytes)
  | none => false

/-- The final frame. The locals are padded so that the stack pointer is aligned below the pushed
registers. -/
def layout (n : Needs) (t : Target) (saved : List PhysReg) (limit : Int) : Except Failure Layout :=
  let savedBytes := saved.length * slotBytes
  let usesRedZone := n.fitsRedZone t saved
  let adjust := if usesRedZone then 0 else roundUp (n.locals + savedBytes) t.alignment - savedBytes
  let outgoing := roundUp (max n.outgoing t.shadowSpace) t.alignment
  let size := (if usesRedZone then n.locals else adjust) + savedBytes + outgoing
  if limit < size then fail (.frameTooLarge size limit)
  else
    .ok
      { convention := t.convention, locals := n.locals, adjust, outgoing, saved, usesRedZone, size }

end Needs

namespace Layout

/-- An instruction that moves the stack pointer by `bytes`. -/
def moveStack (op : AluOp) (bytes : Int) (comment : String) : Instr where
  op := .alu op
  operands := [.imm (BitVec.ofInt 64 bytes), .gpr .rsp]
  comment := comment

def outgoingComment (l : Layout) : String :=
  match l.convention with
  | .sysv => "outgoing arguments"
  | .win64 => "shadow space and outgoing arguments"

/-- Saves the frame pointer and the registers, and makes room for locals and outgoing arguments. -/
def prologue (l : Layout) : List Instr :=
  [{ op := .push, operands := [.gpr .rbp] },
      { op := .mov .quad, operands := [.gpr .rsp, .gpr .rbp] }] ++
    (if 0 < l.adjust then [moveStack .sub l.adjust "locals"] else []) ++
    l.saved.map (fun r => { op := .push, operands := [.full (.phys r)] }) ++
    (if 0 < l.outgoing then [moveStack .sub l.outgoing l.outgoingComment] else [])

def epilogue (l : Layout) : List Instr :=
  (if 0 < l.outgoing then [moveStack .add l.outgoing l.outgoingComment] else []) ++
    l.saved.reverse.map (fun r => { op := .pop, operands := [.full (.phys r)] }) ++
    (if 0 < l.adjust then [{ op := .mov .quad, operands := [.gpr .rbp, .gpr .rsp] }] else []) ++
    [{ op := .pop, operands := [.gpr .rbp] }, { op := .ret }]

end Layout

end NativeCode.Frame
