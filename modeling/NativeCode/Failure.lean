import NativeCode.Source.Diagnostic
import NativeCode.Ir.Instr
import NativeCode.Abi.Target

/-!
# Failures of compilation

Compilation stops at the first failure. A failure has a cause, and names the function, the construct
and the place as far as they are known. Causes are grouped into eight kinds.
-/

namespace NativeCode

open NativeCode.Source (Loc Diagnostic)
open NativeCode.Ir (Ty BinaryOp)
open NativeCode.Machine (RegClass PhysReg)
open NativeCode.Abi (Convention)

inductive Kind where
  | unsupportedInstruction
  | unsupportedType
  | unsupportedConstruct
  | registerAllocation
  | stackOverflow
  | invalidOperand
  | abiViolation
  | assemblerFailure
  deriving DecidableEq, Inhabited

namespace Kind

def name : Kind → String
  | unsupportedInstruction => "unsupported-instruction"
  | unsupportedType => "unsupported-type"
  | unsupportedConstruct => "unsupported-construct"
  | registerAllocation => "register-allocation-failed"
  | stackOverflow => "stack-overflow"
  | invalidOperand => "invalid-operand"
  | abiViolation => "abi-violation"
  | assemblerFailure => "assembler-failure"

def all : List Kind :=
  [unsupportedInstruction, unsupportedType, unsupportedConstruct, registerAllocation, stackOverflow,
    invalidOperand, abiViolation, assemblerFailure]

def ofName? (text : String) : Option Kind := all.find? (·.name == text)

end Kind

inductive Cause where
  -- operations without a machine form
  | noForm (op : BinaryOp) (ty : Ty)
  -- types that cannot be used in a position
  | notPassable (index : Nat) (ty : Ty) (convention : Convention)
  | notMovable (ty : Ty)
  | notAllocatable
  | notReturnable (ty : Ty)
  | globalWithoutSize (name : String)
  | aggregateInitializer (name : String)
  -- ill-formed modules
  | globalTwice (name : String)
  | symbolTwice (name : String)
  | functionWithoutBlocks
  | functionWithoutEntry (name : String)
  | blockTwice (id : Nat)
  | valueTwice (id : Nat)
  | targetMissing (id : Nat)
  | jumpToMissing (source target : Nat)
  | outsideFunction
  -- registers
  | temporariesExhausted
  | noFreeRegister (cls : RegClass)
  | temporaryUnknown (id : Nat)
  -- stack space
  | localsTooLarge (bytes : Int)
  | frameTooLarge (bytes limit : Int)
  -- operands
  | notCallable (name : String)
  | globalUnknown (name : String)
  | notData (name : String)
  | notFloat (operand : Ir.Operand) (ty : Ty)
  | notAddress (operand : Ir.Operand) (ty : Ty)
  | resultUnnamed
  | allocaUnnamed
  | constUnnamed
  | binaryArity (op : BinaryOp) (count : Nat)
  | arity (expected count : Nat)
  | operandMismatch (operand : Ir.Operand) (ty expected : Ty)
  | storedMismatch (operand : Ir.Operand) (expected : Ty)
  | notLiteral (operand : Ir.Operand)
  | voidCallNamed (callee : String)
  | retArity
  | valueFromVoid
  | valueMissing (ty : Ty)
  | conditionMissing
  | conditionNotInteger (operand : Ir.Operand) (ty : Ty)
  | paramOutOfRange (index : Nat)
  | paramUnknown (function : String) (index : Nat)
  | usedBeforeDefined (id : Nat)
  -- parameter placement
  | placementCount (placed expected : Nat)
  | placementClass (index : Nat)
  | placementMisaligned (index : Nat) (offset : Int)
  | placementRegister (index : Nat) (reg : PhysReg)
  -- the assembler
  | cannotOpen (path : String)
  | assemblerExit (driver : String) (status : Nat) (path output : String)
  deriving DecidableEq, Inhabited

namespace Cause

def kind : Cause → Kind
  | noForm .. => .unsupportedInstruction
  | notPassable .. | notMovable _ | notAllocatable | notReturnable _ | globalWithoutSize _
  | aggregateInitializer _ => .unsupportedType
  | globalTwice _ | symbolTwice _ | functionWithoutBlocks | functionWithoutEntry _ | blockTwice _
  | valueTwice _ | targetMissing _ | jumpToMissing .. | outsideFunction => .unsupportedConstruct
  | temporariesExhausted | noFreeRegister _ | temporaryUnknown _ => .registerAllocation
  | localsTooLarge _ | frameTooLarge .. => .stackOverflow
  | notCallable _ | globalUnknown _ | notData _ | notFloat .. | notAddress .. | resultUnnamed
  | allocaUnnamed | constUnnamed | binaryArity .. | arity .. | operandMismatch ..
  | storedMismatch .. | notLiteral _ | voidCallNamed _ | retArity | valueFromVoid | valueMissing _
  | conditionMissing | conditionNotInteger .. | paramOutOfRange _ | paramUnknown ..
  | usedBeforeDefined _ => .invalidOperand
  | placementCount .. | placementClass _ | placementMisaligned .. | placementRegister .. =>
    .abiViolation
  | cannotOpen _ | assemblerExit .. => .assemblerFailure

def className : RegClass → String
  | .gpr => "general-purpose"
  | .xmm => "XMM"

def message : Cause → String
  | noForm op ty => s!"no lowering rule for '{op.name}' on {ty.name}"
  | notPassable index ty convention =>
    s!"parameter {index} of type {ty.name} has no passing rule under {convention.name}"
  | notMovable ty => s!"cannot move a value of type {ty.name} through a register"
  | notAllocatable => "cannot allocate storage for void"
  | notReturnable ty => s!"cannot return a value of type {ty.name} in registers"
  | globalWithoutSize name => s!"global '@{name}' has no storage size"
  | aggregateInitializer name => s!"aggregate global '@{name}' can only be zero-initialised"
  | globalTwice name => s!"global '{name}' is defined more than once"
  | symbolTwice name => s!"symbol '{name}' is defined more than once"
  | functionWithoutBlocks => "function has no basic blocks"
  | functionWithoutEntry name => s!"function '{name}' has no entry block"
  | blockTwice id => s!"block id {id} is used more than once"
  | valueTwice id => s!"value %{id} is defined more than once"
  | targetMissing id => s!"branch target bb{id} does not exist in this function"
  | jumpToMissing source target => s!"bb{source} jumps to missing block bb{target}"
  | outsideFunction => "no function is being translated"
  | temporariesExhausted => "temporary id space exhausted"
  | noFreeRegister cls => s!"no free {className cls} register for a temporary"
  | temporaryUnknown id => s!"temporary %t{id} was never issued"
  | localsTooLarge bytes =>
    s!"local storage of {bytes} bytes cannot be addressed from the frame pointer"
  | frameTooLarge bytes limit =>
    s!"stack frame of {bytes} bytes exceeds the limit of {limit} bytes"
  | notCallable name => s!"call target '{name}' is not a function"
  | globalUnknown name => s!"unknown global '@{name}'"
  | notData name => s!"'@{name}' names a function, not data"
  | notFloat operand ty =>
    s!"operand {operand.text} of type {ty.name} cannot be placed in an XMM register"
  | notAddress operand ty => s!"operand {operand.text} of type {ty.name} is not an address"
  | resultUnnamed => "instruction produces a value but names no result"
  | allocaUnnamed => "alloca names no result"
  | constUnnamed => "const names no result"
  | binaryArity op count => s!"{op.name} expects 2 operands, got {count}"
  | arity expected count => s!"expected {expected} operand(s), got {count}"
  | operandMismatch operand ty expected =>
    s!"operand {operand.text} of type {ty.name} does not match {expected.name}"
  | storedMismatch operand expected =>
    s!"stored value {operand.text} does not match {expected.name}"
  | notLiteral operand => s!"const operand {operand.text} is not a literal"
  | voidCallNamed callee => s!"call to '{callee}' returns void but names a result"
  | retArity => "ret takes at most one operand"
  | valueFromVoid => "void function returns a value"
  | valueMissing ty => s!"function returning {ty.name} returns no value"
  | conditionMissing => "conditional jump has no condition"
  | conditionNotInteger operand ty => s!"branch condition {operand.text} has type {ty.name}"
  | paramOutOfRange index => s!"parameter index {index} is out of range"
  | paramUnknown function index => s!"function '{function}' has no parameter {index}"
  | usedBeforeDefined id => s!"value %{id} is used before it is defined"
  | placementCount placed expected => s!"adapter placed {placed} of {expected} parameters"
  | placementClass index => s!"parameter {index} placed in the wrong register class"
  | placementMisaligned index offset => s!"parameter {index} has misaligned stack offset {offset}"
  | placementRegister index reg =>
    s!"parameter {index} placed in {reg.text .quad}, which is not a parameter register"
  | cannotOpen path => s!"unable to open {path}"
  | assemblerExit driver status path output =>
    s!"{driver} exited with status {status} on {path}" ++
      if output.isEmpty then "" else ":\n" ++ output

end Cause

/-- A cause with its circumstances; an empty text is unknown. -/
structure Failure where
  cause : Cause
  function : String := ""
  construct : String := ""
  loc : Loc := {}
  deriving DecidableEq, Inhabited

/-- The wording of a failure, and its circumstances. -/
structure Report where
  kind : Kind
  message : String
  function : String := ""
  construct : String := ""
  loc : Loc := {}
  deriving DecidableEq, Inhabited

def Report.diagnostic (r : Report) : Diagnostic where
  severity := .error
  message :=
    r.kind.name ++ ": " ++ r.message ++
      (if r.function.isEmpty then "" else s!" in function '{r.function}'") ++
      (if r.construct.isEmpty then "" else s!" near '{r.construct}'")
  loc := r.loc

namespace Failure

def report (f : Failure) : Report where
  kind := f.cause.kind
  message := f.cause.message
  function := f.function
  construct := f.construct
  loc := f.loc

def diagnostic (f : Failure) : Diagnostic := f.report.diagnostic

/-- Fills in the construct and the place where they are unknown. -/
def locate (f : Failure) (construct : String) (loc : Loc) : Failure :=
  { f with
    construct := if f.construct.isEmpty then construct else f.construct
    loc := f.loc.orElse loc }

def within (f : Failure) (function : String) : Failure :=
  { f with function := if f.function.isEmpty then function else f.function }

end Failure

def fail {α : Type} (cause : Cause) (construct : String := "") (loc : Loc := {}) :
    Except Failure α :=
  .error { cause, construct, loc }

end NativeCode
