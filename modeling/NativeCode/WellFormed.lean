import NativeCode.Failure
import NativeCode.Ir.Module

/-!
# Well-formed modules

Before any code is made a module is checked: no two of its globals and functions share a name, and
in each function the blocks have different numbers, the results have different numbers, and
terminators lead to blocks that exist.
-/

namespace NativeCode.WellFormed

open NativeCode.Ir

def reject {α : Type} (function : String) (cause : Cause) (construct : String)
    (loc : Source.Loc := {}) : Except Failure α :=
  .error { cause, function, construct, loc }

/-- The numbers of blocks are different from each other and from `seen`. -/
def checkBlockIds (function : String) : List Nat → List Block → Except Failure Unit
  | _, [] => .ok ()
  | seen, b :: bs =>
    if seen.contains b.id then reject function (.blockTwice b.id) s!"bb{b.id}"
    else checkBlockIds function (b.id :: seen) bs

/-- The results of instructions differ from each other and from `seen`, which grows by them. -/
def checkResults (function : String) : List Nat → List Instr → Except Failure (List Nat)
  | seen, [] => .ok seen
  | seen, i :: is =>
    match i.result with
    | none => checkResults function seen is
    | some id =>
      if seen.contains id then reject function (.valueTwice id) i.text i.loc
      else checkResults function (id :: seen) is

def checkTargets (function : String) (ids : List Nat) (t : Terminator) :
    List Nat → Except Failure Unit
  | [] => .ok ()
  | target :: rest =>
    if ids.contains target then checkTargets function ids t rest
    else reject function (.targetMissing target) t.text t.loc

/-- Results and targets of blocks, in the order of the blocks. -/
def checkBlocks (function : String) (ids : List Nat) : List Nat → List Block → Except Failure Unit
  | _, [] => .ok ()
  | seen, b :: bs => do
    let seen ← checkResults function seen b.instrs
    checkTargets function ids b.term b.term.successors
    checkBlocks function ids seen bs

/-- A function has blocks, and its numbers and targets are as they should be. -/
def checkFunction (f : Function) : Except Failure Unit := do
  if f.blocks.isEmpty then reject f.name .functionWithoutBlocks f.name
  checkBlockIds f.name [] f.blocks
  checkBlocks f.name (f.blocks.map (·.id)) [] f.blocks

/-- The names of globals differ from each other and from `seen`, which grows by them. -/
def checkGlobals : List String → List Global → Except Failure (List String)
  | seen, [] => .ok seen
  | seen, g :: gs =>
    if seen.contains g.name then reject "" (.globalTwice g.name) g.name
    else checkGlobals (g.name :: seen) gs

/-- The names of functions are different from each other and from `seen`. -/
def checkNames : List String → List Function → Except Failure Unit
  | _, [] => .ok ()
  | seen, f :: fs =>
    if seen.contains f.name then reject f.name (.symbolTwice f.name) f.name
    else checkNames (f.name :: seen) fs

def checkModule (m : Module) : Except Failure Unit := do
  let seen ← checkGlobals [] m.globals
  checkNames seen m.functions
  m.functions.forM checkFunction

end NativeCode.WellFormed
