import NativeCode.Ir.Reader.Operand

/-!
# Reading instructions

A line of a block is an instruction or the end of the block. Both start with a word that fixes the
form of what follows; results, where there is one, come first.
-/

namespace NativeCode.Ir.Reader

open NativeCode.Text

/-- The words that open an instruction or the end of a block. -/
inductive Mnemonic where
  | binary (op : BinaryOp)
  | load
  | alloca
  | const
  | store
  | call
  | ret
  | jmp
  | br
  | unreachable
  deriving DecidableEq, Inhabited

namespace Mnemonic

def ofWord? (w : List Char) : Option Mnemonic :=
  match String.ofList w with
  | "load" => some load
  | "alloca" => some alloca
  | "const" => some const
  | "store" => some store
  | "call" => some call
  | "ret" => some ret
  | "jmp" => some jmp
  | "br" => some br
  | "unreachable" => some unreachable
  | s => (BinaryOp.ofName? s).map binary

def needsResult : Mnemonic → Bool
  | binary _ | load | alloca | const => true
  | _ => false

def forbidsResult : Mnemonic → Bool
  | store | ret | jmp | br | unreachable => true
  | _ => false

end Mnemonic

/-- A line of a block: an instruction, or the end of the block. -/
inductive Statement where
  | instr (kind : InstrKind) (ty : Ty) (operands : List Operand)
  | exit (exit : Exit) (value : Option Operand)
  deriving Inhabited

/-- The number of a result in front of the mnemonic, if there is one. -/
def readResult (lineColumn : Nat) : Scan (Option Nat) := do
  match (← get).rest with
  | '%' :: _ =>
    match index? ((← token).drop 1) with
    | none => failAt lineColumn .resultNotNumbered
    | some id =>
      expect '=' .expectedEquals
      return some id
  | _ => return none

def readCallee : Scan String := do
  let column ← nextColumn
  match ← token with
  | '@' :: w => if isIdentifier w then return String.ofList w else failAt column .expectedCallee
  | _ => failAt column .expectedCallee

/-- The rest of a statement after its mnemonic; `column` is the column of the mnemonic. -/
def readForm (params : List Param) (ret : Ty) (result : Option Nat) (column : Nat) :
    Mnemonic → Scan Statement
  | .binary op => do
    let ty ← expectTy
    let lhs ← expectOperand params ty
    expectComma
    let rhs ← expectOperand params ty
    return .instr (.binary op) ty [lhs, rhs]
  | .load => do
    let ty ← expectTy
    let address ← expectOperand params (some .ptr)
    return .instr .load ty [address]
  | .alloca => do return .instr .alloca (← expectTy) []
  | .const => do
    let ty ← expectTy
    let literal ← expectOperand params ty
    return .instr .const ty [literal]
  | .store => do
    let ty ← expectTy
    let value ← expectOperand params ty
    expectComma
    let address ← expectOperand params (some .ptr)
    return .instr .store ty [value, address]
  | .call => do
    let ty ← expectTy
    if result.isSome && ty.isVoid then failAt column .voidCallResult
    let callee ← readCallee
    expect '(' .expectedArgumentList
    let arguments ← separated (expectOperand params none) .expectedArgumentEnd
    return .instr (.call callee) ty arguments
  | .ret => do
    if ← atEnd then return .instr .ret ret []
    if ret.isVoid then failHere .voidReturnValue
    let value ← expectOperand params ret
    return .instr .ret ret [value]
  | .jmp => do return .exit (.jump (← expectBlockRef)) none
  | .br => do
    let condition ← expectOperand params (some .bool)
    expectComma
    let onTrue ← expectBlockRef
    expectComma
    let onFalse ← expectBlockRef
    return .exit (.branch onTrue onFalse) (some condition)
  | .unreachable => return .exit .unreachable none

/-- A statement with its result. `open?` stops with a fault if no statement can stand here; it is
asked after the mnemonic has been read, and its faults are those of the whole line. -/
def readStatement (params : List Param) (ret : Ty) (open? : Except Fault Unit) :
    Scan (Option Nat × Statement) := do
  let lineColumn ← nextColumn
  let result ← readResult lineColumn
  let column ← nextColumn
  let w ← token
  match open? with
  | .error fault => failAt lineColumn fault
  | .ok () =>
    match Mnemonic.ofWord? w with
    | none => failAt column (.unknownOpcode (String.ofList w))
    | some m =>
      if m.needsResult && result.isNone then failAt column (.resultRequired (String.ofList w))
      if m.forbidsResult && result.isSome then failAt column (.resultForbidden (String.ofList w))
      let statement ← readForm params ret result column m
      expectEnd
      return (result, statement)

end NativeCode.Ir.Reader
