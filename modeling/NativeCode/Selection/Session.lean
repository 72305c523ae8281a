import NativeCode.Ir.Module
import NativeCode.Frame
import NativeCode.Symbols
import NativeCode.Temps

/-!
# The state of a compilation

While a function is compiled, every parameter and every result has a residence: a home slot in the
frame, the address of a slot, or a known constant. The session holds the residences, the frame, the
temporaries and the code of the open block. The symbols outlive functions, all else starts afresh
with each.
-/

namespace NativeCode.Selection

open NativeCode.Ir (Ty)
open NativeCode.Machine (Cond)

inductive Access where
  /-- It is stored in the slot at a displacement from the frame pointer. -/
  | home
  /-- It is the address of that slot. -/
  | address
  /-- It is known. -/
  | constant
  deriving DecidableEq, Inhabited

/-- How a value is reached. Homes and addresses use `disp`, and constants use `bits`. -/
structure Residence where
  access : Access := .home
  ty : Ty := .i64
  disp : Int := 0
  bits : Word := 0
  deriving DecidableEq, Inhabited

structure Session where
  symbols : Symbols := {}
  /-- The open function. -/
  function : Option Ir.Function := none
  /-- The assembly name of the open function. -/
  symbol : String := ""
  /-- How many fresh labels the function has. -/
  labels : Nat := 0
  temps : Temps := {}
  frame : Frame.Needs := {}
  params : List Residence := []
  /-- Residences of results, the latest first. -/
  values : List (Nat × Residence) := []
  /-- The results that the function reads, once for each reading operand. -/
  reads : List Nat := []
  /-- The condition that a comparison has left in the flags for the branch after it. -/
  pending : Option Cond := none
  /-- Whether some path returns. -/
  returns : Bool := false
  /-- The code of the open block. -/
  code : Array Machine.Instr := #[]
  deriving Inhabited

namespace Session

/-- Starts a function under an assembly name. Only the symbols stay. -/
def enter (s : Session) (f : Ir.Function) (symbol : String) : Session where
  symbols := s.symbols
  function := some f
  symbol := symbol
  params := f.params.map fun _ => {}

def current (s : Session) : Except Failure Ir.Function :=
  match s.function with
  | some f => .ok f
  | none => fail .outsideFunction

def blockLabel (s : Session) (id : Nat) : String := s!".L{s.symbol}_bb{id}"

def epilogueLabel (s : Session) : String := s!".L{s.symbol}_epilogue"

def freshLabel (s : Session) (hint : String) : String × Session :=
  (s!".L{s.symbol}_{hint}{s.labels}", { s with labels := s.labels + 1 })

def setParam (s : Session) (index : Nat) (r : Residence) : Except Failure Session :=
  if index < s.params.length then .ok { s with params := s.params.set index r }
  else fail (.paramOutOfRange index)

def setValue (s : Session) (id : Nat) (r : Residence) : Session :=
  { s with values := (id, r) :: s.values }

def param (s : Session) (index : Nat) : Except Failure Residence :=
  match s.params[index]? with
  | some r => .ok r
  | none => do fail (.paramUnknown (← s.current).name index)

def value (s : Session) (id : Nat) : Except Failure Residence :=
  match s.values.lookup id with
  | some r => .ok r
  | none => fail (.usedBeforeDefined id) s!"%{id}"

def useCount (s : Session) (id : Nat) : Nat := s.reads.count id

/-- Takes space for a local object in the frame, and gives its displacement. -/
def allocate (s : Session) (bytes : Nat) : Except Failure (Int × Session) := do
  let (disp, frame) ← s.frame.allocate bytes
  return (disp, { s with frame })

def release (s : Session) : Session := { s with temps := s.temps.release }

end Session

end NativeCode.Selection
