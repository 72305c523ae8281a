import NativeCode.Selection.Emit

/-!
# Code for two-operand operations

Integer operations work on 64 bits and extend their result by its type. Division goes through
`%rdx:%rax`, variable shift counts through `%cl`. Float comparisons are false on unordered operands,
except for inequality.
-/

namespace NativeCode.Selection

open NativeCode.Ir (Ty BinaryOp)
open NativeCode.Machine

/-- The machine forms of two-operand operations. -/
inductive Form where
  | arith (op : AluOp)
  | divide
  | shift (toRight : Bool)
  | compare
  | floatArith (op : FloatOp)
  | floatCompare
  deriving DecidableEq, Inhabited

def intForm : BinaryOp → Form
  | .add => .arith .add
  | .sub => .arith .sub
  | .mul => .arith .imul
  | .div => .divide
  | .and => .arith .and
  | .or => .arith .or
  | .xor => .arith .xor
  | .shl => .shift false
  | .shr => .shift true
  | .eq | .ne | .lt | .le | .gt | .ge => .compare

/-- The form of an operation on floats, if it has one. -/
def floatForm? : BinaryOp → Option Form
  | .add => some (.floatArith .add)
  | .sub => some (.floatArith .sub)
  | .mul => some (.floatArith .mul)
  | .div => some (.floatArith .div)
  | .eq | .ne | .lt | .le | .gt | .ge => some .floatCompare
  | .and | .or | .xor | .shl | .shr => none

/-- The form of an operation on a type, if it has one. -/
def form? (op : BinaryOp) (ty : Ty) : Option Form :=
  if ty.isInteger then some (intForm op)
  else if ty.isFloat then floatForm? op
  else none

def intCond (op : BinaryOp) (signed : Bool) : Cond :=
  match op with
  | .ne => .ne
  | .lt => if signed then .l else .b
  | .le => if signed then .le else .be
  | .gt => if signed then .g else .a
  | .ge => if signed then .ge else .ae
  | _ => .e

/-- An operand has to be in the register class of the instruction. -/
def checkClass (i : Ir.Instr) (o : Ir.Operand) : Emit Unit := do
  let ty ← typeOf o
  if ty.regClass ≠ i.ty.regClass then stopHere (.operandMismatch o ty i.ty) i.text

/-- The two operands of an instruction, both in its register class. -/
def operandPair (i : Ir.Instr) (op : BinaryOp) : Emit (Ir.Operand × Ir.Operand) :=
  match i.operands with
  | [a, b] => do
    checkClass i a
    checkClass i b
    return (a, b)
  | os => stopHere (.binaryArity op os.length) i.text

/-- Addition, subtraction, multiplication and bitwise operations. -/
def arith (i : Ir.Instr) (op : AluOp) (a b : Ir.Operand) : Emit Unit := do
  let acc ← loadGpr a
  let rhs ← gprSource b
  emit (.alu op) [rhs, .full acc]
  storeGpr i acc i.ty

/-- The divisor of a division: it cannot be an immediate. -/
def divisor (b : Ir.Operand) : Emit Operand := do
  match ← gprSource b with
  | .imm v =>
    let t ← newTemp .gpr
    emit (.mov .quad) [.imm v, .full t]
    return .full t
  | o => return o

def divide (i : Ir.Instr) (a b : Ir.Operand) : Emit Unit := do
  let signed := i.ty.isSigned
  loadGprInto a { reg := .ofGpr .rax }
  if signed then emit .cqto
  else emit .xorl [.part (.ofGpr .rdx) .long, .part (.ofGpr .rdx) .long]
  let d ← divisor b
  emit (.div signed) [d]
  storeGpr i (.ofGpr .rax) i.ty

def shiftOp (toRight : Bool) (ty : Ty) : ShiftOp :=
  if toRight then if ty.isSigned then .sar else .shr else .shl

def shift (i : Ir.Instr) (toRight : Bool) (a b : Ir.Operand) : Emit Unit := do
  let op := shiftOp toRight i.ty
  let value ← loadGpr a
  match ← constantValue b with
  | some count => emit (.shift op) [.imm (count &&& 63), .full value]
  | none =>
    loadGprInto b { reg := .ofGpr .rcx }
    emit (.shift op) [.part (.ofGpr .rcx) .byte, .full value]
  storeGpr i value i.ty

/-- Integer comparison. Its result is a boolean, or a condition in the flags if only the flags are
wanted. -/
def compare (i : Ir.Instr) (op : BinaryOp) (a b : Ir.Operand) : Emit Unit := do
  let cond := intCond op i.ty.isSigned
  let lhs ← loadGpr a
  let rhs ← gprSource b
  emit .cmp [rhs, .full lhs]
  if (← read).flagsOnly then modify fun s => { s with pending := some cond }
  else
    emit (.set cond) [.part lhs .byte]
    storeGpr i lhs .bool

/-- The precision of a float instruction; types other than `f32` count as double. -/
def precision : Ty → Precision
  | .float .single => .single
  | _ => .double

/-- Float addition, subtraction, multiplication and division. -/
def floatArith (i : Ir.Instr) (op : FloatOp) (a b : Ir.Operand) : Emit Unit := do
  let acc ← loadXmm a
  let rhs ← xmmSource b
  emit (.float op (precision i.ty)) [rhs, .full acc]
  storeXmm i acc i.ty

/-- The boolean of a float comparison in the low byte of `result`, from the flags. -/
def floatFlags (op : BinaryOp) (result : Reg) : Emit Unit := do
  match op with
  | .eq =>
    let parity ← newTemp .gpr
    emit (.set .e) [.part result .byte]
    emit (.set .np) [.part parity .byte]
    emit .andb [.part parity .byte, .part result .byte]
  | .ne =>
    let parity ← newTemp .gpr
    emit (.set .ne) [.part result .byte]
    emit (.set .p) [.part parity .byte]
    emit .orb [.part parity .byte, .part result .byte]
  | .lt | .gt => emit (.set .a) [.part result .byte]
  | _ => emit (.set .ae) [.part result .byte]

/-- Float comparison. Less-than swaps its operands, because only the "above" conditions are false on
unordered operands. -/
def floatCompare (i : Ir.Instr) (op : BinaryOp) (a b : Ir.Operand) : Emit Unit := do
  let (first, second) := if op = .lt ∨ op = .le then (b, a) else (a, b)
  let lhs ← loadXmm first
  let rhs ← xmmSource second
  emit (.ucomi (precision i.ty)) [rhs, .full lhs]
  let result ← newTemp .gpr
  floatFlags op result
  storeGpr i result .bool

def binary (i : Ir.Instr) (op : BinaryOp) : Emit Unit := do
  match form? op i.ty with
  | none => stopHere (.noForm op i.ty) i.text
  | some form =>
    let (a, b) ← operandPair i op
    match form with
    | .arith alu => arith i alu a b
    | .divide => divide i a b
    | .shift toRight => shift i toRight a b
    | .compare => compare i op a b
    | .floatArith f => floatArith i f a b
    | .floatCompare => floatCompare i op a b

end NativeCode.Selection
