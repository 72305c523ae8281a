import NativeCode.Source.Loc
import NativeCode.Ir.Operand

/-!
# Instructions and block exits

An instruction has a kind, a type, operands and possibly a result; a terminator ends a block.
Neither type rules out a wrong number of operands: that is found when code is selected.
-/

namespace NativeCode.Ir

open NativeCode.Source (Loc)

inductive BinaryOp where
  | add
  | sub
  | mul
  | div
  | and
  | or
  | xor
  | shl
  | shr
  | eq
  | ne
  | lt
  | le
  | gt
  | ge
  deriving DecidableEq, Inhabited

namespace BinaryOp

def name : BinaryOp → String
  | add => "add"
  | sub => "sub"
  | mul => "mul"
  | div => "div"
  | and => "and"
  | or => "or"
  | xor => "xor"
  | shl => "shl"
  | shr => "shr"
  | eq => "eq"
  | ne => "ne"
  | lt => "lt"
  | le => "le"
  | gt => "gt"
  | ge => "ge"

def all : List BinaryOp :=
  [add, sub, mul, div, and, or, xor, shl, shr, eq, ne, lt, le, gt, ge]

def ofName? (text : String) : Option BinaryOp := all.find? (·.name == text)

def isComparison : BinaryOp → Bool
  | eq | ne | lt | le | gt | ge => true
  | _ => false

theorem mem_all (op : BinaryOp) : op ∈ all := by cases op <;> decide

end BinaryOp

inductive InstrKind where
  | binary (op : BinaryOp)
  | load
  | store
  | call (callee : String)
  | ret
  | alloca
  | const
  deriving DecidableEq, Inhabited

namespace InstrKind

def name : InstrKind → String
  | binary _ => "binary"
  | load => "load"
  | store => "store"
  | call _ => "call"
  | ret => "ret"
  | alloca => "alloca"
  | const => "const"

def mnemonic : InstrKind → String
  | binary op => op.name
  | kind => kind.name

def isRet : InstrKind → Bool
  | ret => true
  | _ => false

end InstrKind

structure Instr where
  id : Nat := 0
  result : Option Nat := none
  kind : InstrKind
  ty : Ty := .i64
  operands : List Operand := []
  loc : Loc := {}
  deriving DecidableEq, Inhabited

inductive Exit where
  | ret
  | jump (target : Nat)
  | branch (onTrue onFalse : Nat)
  | unreachable
  deriving DecidableEq, Inhabited

/-- The end of a block, with the operand it reads: the returned value or the condition. -/
structure Terminator where
  exit : Exit := .unreachable
  value : Option Operand := none
  loc : Loc := {}
  deriving DecidableEq, Inhabited

def operandsText (ops : List Operand) : String := ", ".intercalate (ops.map Operand.text)

namespace Instr

def argumentsText (i : Instr) : String :=
  match i.kind with
  | .call callee => " @" ++ callee ++ "(" ++ operandsText i.operands ++ ")"
  | _ => if i.operands.isEmpty then "" else " " ++ operandsText i.operands

/-- The result as it stands in front of the operation. -/
def resultText (i : Instr) : String :=
  match i.result with
  | some id => s!"%{id} = "
  | none => ""

def text (i : Instr) : String :=
  i.resultText ++ i.kind.mnemonic ++ " " ++ i.ty.name ++ i.argumentsText

end Instr

namespace Exit

def successors : Exit → List Nat
  | jump target => [target]
  | branch onTrue onFalse => [onTrue, onFalse]
  | ret | unreachable => []

end Exit

namespace Terminator

def successors (t : Terminator) : List Nat := t.exit.successors

def text (t : Terminator) : String :=
  match t.exit with
  | .ret =>
    match t.value with
    | some v => "ret " ++ v.text
    | none => "ret"
  | .jump target => s!"jmp bb{target}"
  | .branch onTrue onFalse =>
    "br " ++ (t.value.map Operand.text).getD "?" ++ s!", bb{onTrue}, bb{onFalse}"
  | .unreachable => "unreachable"

end Terminator

end NativeCode.Ir
