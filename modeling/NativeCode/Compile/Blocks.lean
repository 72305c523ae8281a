import NativeCode.ControlFlow.Order
import NativeCode.Selection.Construct

/-!
# Compiling blocks

The blocks of a function are compiled in the order of emission. Temporaries end with each
instruction. A return in the middle of a block ends the machine block; what follows goes under a
fresh label. An integer comparison at the end of a block that only the branch after it reads is
fused with the branch.
-/

namespace NativeCode.Compile

open NativeCode.Selection

/-- A computation that compiles in a session. -/
abbrev Build := StateT Session (Except Failure)

/-- How many instructions a block had and how many it became. -/
structure BlockSize where
  id : Nat
  instrs : Nat
  machineInstrs : Nat
  deriving DecidableEq, Inhabited

/-- Whether instruction `i`, the last of its block, is an integer comparison that is read by the
terminator `t`, a proper branch, and by nothing else. -/
def fuses (s : Session) (i : Ir.Instr) (t : Ir.Terminator) : Bool :=
  match i.kind, i.result, t.exit, t.value with
  | .binary op, some id, .branch onTrue onFalse, some (.value v) =>
    op.isComparison && i.ty.isInteger && v == id && onTrue != onFalse && s.useCount id == 1
  | _, _, _, _ => false

def takeCode : Build (List Machine.Instr) :=
  modifyGet fun s => (s.code.toList, { s with code := #[] })

def closeBlock (label : String) : Build Machine.Block := do
  return { label, code := ← takeCode }

def freshLabel (hint : String) : Build String := modifyGet (·.freshLabel hint)

/-- Compiles instructions under `label`. The result are the machine blocks that were closed, and the
label of the one that is open. -/
def compileInstrs (o : Options) (t : Ir.Terminator) :
    List Ir.Instr → String → List Machine.Block → Build (List Machine.Block × String)
  | [], label, closed => return (closed, label)
  | i :: is, label, closed => do
    let fused := is.isEmpty && fuses (← get) i t
    selectInstr o i fused
    modify Session.release
    if i.kind.isRet then
      let block ← closeBlock label
      let label ← freshLabel "cont"
      compileInstrs o t is label (closed ++ [block])
    else compileInstrs o t is label closed

/-- The machine blocks of a block; `next` is the block that is emitted after it. -/
def compileBlock (o : Options) (b : Ir.Block) (next : Option Nat) : Build (List Machine.Block) := do
  let (closed, label) ← compileInstrs o b.term b.instrs ((← get).blockLabel b.id) []
  selectTerm o b.term next
  modify Session.release
  return closed ++ [← closeBlock label]

def blockSize (b : Ir.Block) (code : List Machine.Block) : BlockSize where
  id := b.id
  instrs := b.instrs.length
  machineInstrs := (code.flatMap (·.code)).length

/-- Compiles blocks that are emitted one after the other. -/
def compileEach (o : Options) : List Ir.Block → Build (List Machine.Block × List BlockSize)
  | [] => return ([], [])
  | b :: bs => do
    let code ← compileBlock o b (bs.head?.map (·.id))
    let (rest, sizes) ← compileEach o bs
    return (code ++ rest, blockSize b code :: sizes)

def compileBlocks (o : Options) (f : Ir.Function) :
    Build (List Machine.Block × List BlockSize) := do
  compileEach o (← ControlFlow.order f)

end NativeCode.Compile
