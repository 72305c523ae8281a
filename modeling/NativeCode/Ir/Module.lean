import NativeCode.Ir.Instr

/-!
# Blocks, functions and modules

A module has globals, names of external functions and functions; a function has parameters and
blocks, the first of which is its entry.
-/

namespace NativeCode.Ir

/-- A straight run of instructions with its end. -/
structure Block where
  id : Nat := 0
  instrs : List Instr := []
  term : Terminator := {}
  deriving DecidableEq, Inhabited

structure Param where
  name : String
  ty : Ty
  deriving DecidableEq, Inhabited

/-- A function; its first block is the entry. -/
structure Function where
  name : String := "f"
  params : List Param := []
  ret : Ty := .void
  blocks : List Block := []
  deriving DecidableEq, Inhabited

structure Global where
  name : String
  ty : Ty := .i64
  init : Option Word := none
  isConstant : Bool := false
  deriving DecidableEq, Inhabited

/-- Everything that one source text declares. -/
structure Module where
  name : String := "module"
  globals : List Global := []
  externs : List String := []
  functions : List Function := []
  deriving DecidableEq, Inhabited

/-- The results that a block reads, once for each reading operand. -/
def Block.reads (b : Block) : List Nat :=
  b.instrs.flatMap (fun i => i.operands.filterMap Operand.valueId?) ++
    (b.term.value.bind Operand.valueId?).toList

namespace Function

def block? (f : Function) (id : Nat) : Option Block := f.blocks.find? (·.id == id)

/-- The results that a function reads, once for each reading operand. -/
def reads (f : Function) : List Nat := f.blocks.flatMap Block.reads

/-- The results that are read, in increasing order, each with the number of its readers. -/
def useCounts (f : Function) : List (Nat × Nat) :=
  let ids := f.reads.mergeSort
  ids.eraseDups.map fun id => (id, ids.count id)

end Function

end NativeCode.Ir
