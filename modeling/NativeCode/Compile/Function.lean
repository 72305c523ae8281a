import NativeCode.Compile.Blocks

/-!
# Compiling functions

The prologue stores the parameters that arrive in registers in home slots, so that a jump back to
the entry block does not read argument registers again. Narrow integers are extended before they are
stored. Parameters that arrive on the stack at full width stay where they are.
-/

namespace NativeCode.Compile

open NativeCode.Abi
open NativeCode.Machine
open NativeCode.Selection

/-- The frame pointer lies this far below the stack pointer of the caller: return address and saved
frame pointer. -/
def incomingBase : Int := 16

def newSlot : Build Int := do
  let (disp, s) ← (← get).allocate 8
  set s
  return disp

def homeStore (op : Opcode) (r : PhysReg) (disp : Int) (comment : String) : Instr where
  op := op
  operands := [.full (.phys r), .slot disp]
  comment := comment

/-- Gives a parameter its home: its displacement, and the code that fills it. -/
def homeParam (p : Ir.Param) (placement : Placement) : Build (Int × List Instr) := do
  let comment := "%" ++ p.name
  match placement.place with
  | .stack offset =>
    let incoming := incomingBase + offset
    if placement.cls = .gpr ∧ p.ty.size < 8 then
      let disp ← newSlot
      return (disp,
        [extendingLoad (.slot incoming) { reg := .ofGpr .rax } p.ty,
          homeStore (.mov .quad) (.gpr .rax) disp comment])
    else return (incoming, [])
  | .register r =>
    let disp ← newSlot
    match placement.cls with
    | .xmm => return (disp, [homeStore (floatMove p.ty) r disp comment])
    | .gpr =>
      return (disp,
        (extendInPlace { reg := .phys r } p.ty).toList ++
          [homeStore (.mov .quad) r disp comment])

/-- Gives parameters from position `index` on their homes, and the code that fills them. -/
def homeEach (index : Nat) : List (Ir.Param × Placement) → Build (List Instr)
  | [] => return []
  | (p, placement) :: rest => do
    let (disp, code) ← homeParam p placement
    set (← (← get).setParam index { access := .home, ty := p.ty, disp })
    return code ++ (← homeEach (index + 1) rest)

/-- Gives the parameters of a function their homes, and the code that fills them. -/
def homeParams (t : Target) (f : Ir.Function) : Build (List Instr) := do
  let placements ← t.place (f.params.map (·.ty))
  homeEach 0 (f.params.zip placements)

/-- A compiled function with the lines of its trace. -/
structure Compiled where
  code : Machine.Function
  trace : String
  deriving Inhabited

def traceText (f : Ir.Function) (sizes : List BlockSize) (frame : Frame.Layout) : String :=
  sizes.foldl (fun text b =>
      text ++ s!"[kestrel]   bb{b.id}: {b.instrs} instruction(s) -> " ++
        s!"{b.machineInstrs} machine instruction(s)\n")
    s!"[kestrel] function {f.name}: {sizes.length} block(s), frame {frame.size} bytes\n"

def compileBody (o : Options) (f : Ir.Function) : Build Compiled := do
  let target := o.target
  if f.ret.isAggregate then throw { cause := .notReturnable f.ret, construct := f.name }
  let homing ← homeParams target f
  modify fun s => { s with reads := f.reads }
  let (blocks, sizes) ← compileBlocks o f
  let s ← get
  let frame ← s.frame.layout target (s.temps.saved target) o.maxFrame
  let code ← s.temps.bind
    { name := s.symbol
      prologue := frame.prologue ++ homing
      blocks
      epilogueLabel := if s.returns then s.epilogueLabel else ""
      epilogue := if s.returns then frame.epilogue else [] }
  return { code, trace := if o.trace then traceText f sizes frame else "" }

/-- The assembly name of a function: that of its symbol, if it has one. -/
def asmName (o : Options) (symbols : Symbols) (f : Ir.Function) : String :=
  match symbols.find? f.name with
  | some e => e.asm
  | none => o.stem ++ f.name

/-- Compiles a function. The session keeps its symbols and starts all else afresh. -/
def compileFunction (o : Options) (f : Ir.Function) : Build Compiled := fun s =>
  ((compileBody o f).run (s.enter f (asmName o s.symbols f))).mapError (·.within f.name)

end NativeCode.Compile
