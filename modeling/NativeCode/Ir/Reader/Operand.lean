import NativeCode.Real.Literal
import NativeCode.Ir.Module
import NativeCode.Ir.Reader.Cursor

/-!
# Reading types, operands and block references

A literal is read at the type its position expects. Without an expected type a literal that looks
like a float is a double and every other one a 64-bit integer.
-/

namespace NativeCode.Ir.Reader

open NativeCode.Text

/-- A word that is written like a float: it has a point or an exponent mark and no hexadecimal mark,
or it is one of the special words. -/
def looksFloat (w : List Char) : Bool :=
  !(hasHexMark w) &&
    (w.any (fun c => c == '.' || c == 'e' || c == 'E') ||
      w == "inf".toList || w == "-inf".toList || w == "nan".toList)
where
  /-- Whether `0x` or `0X` occurs. -/
  hasHexMark : List Char → Bool
    | '0' :: c :: rest => c == 'x' || c == 'X' || hasHexMark (c :: rest)
    | _ :: rest => hasHexMark rest
    | [] => false

def readFloat (p : Precision) (w : List Char) : Except Fault Operand :=
  let bits :=
    match p with
    | .single => Real.single? w
    | .double => Real.double? w
  match bits with
  | some b => .ok (.const (.float p) (BitVec.ofNat 64 b))
  | none => .error (.malformedFloat (String.ofList w))

def readInteger (ty : Ty) (w : List Char) : Except Fault Operand :=
  match integer? w with
  | none => .error (.malformedOperand (String.ofList w))
  | some v =>
    if !ty.isInteger then .error (.integerUsedWith ty)
    else if !ty.holds v then .error (.literalOutOfRange (String.ofList w) ty)
    else .ok (.const ty v)

/-- A literal at the type its position expects, if it expects one. -/
def readLiteral (expected : Option Ty) (w : List Char) : Except Fault Operand :=
  match expected with
  | some (.float p) => readFloat p w
  | some ty => if looksFloat w then .error (.floatUsedWith ty) else readInteger ty w
  | none => if looksFloat w then readFloat .double w else readInteger .i64 w

/-- A reference after `%`: a numbered result, or a parameter by its name. -/
def readReference (params : List Param) (w rest : List Char) : Except Fault Operand :=
  match index? rest with
  | some id => .ok (.value id)
  | none =>
    match params.findIdx? (·.name == String.ofList rest) with
    | some i => .ok (.param i)
    | none => .error (.unknownValue (String.ofList w))

def readOperand (params : List Param) (expected : Option Ty) (w : List Char) :
    Except Fault Operand :=
  match w with
  | [] => .error .expectedOperand
  | '%' :: rest => readReference params w rest
  | '@' :: rest =>
    if isIdentifier rest then .ok (.global (String.ofList rest))
    else .error (.malformedGlobalRef (String.ofList w))
  | _ =>
    if w = "true".toList then .ok (.const .bool 1)
    else if w = "false".toList then .ok (.const .bool 0)
    else readLiteral expected w

def expectOperand (params : List Param) (expected : Option Ty) : Scan Operand := do
  let column ← nextColumn
  match readOperand params expected (← token) with
  | .ok o => return o
  | .error f => failAt column f

def expectTy : Scan Ty := do
  let column ← nextColumn
  let w ← token
  match Ty.ofName? (String.ofList w) with
  | some ty => return ty
  | none => failAt column (.unknownType (String.ofList w))

def readBlockRef : List Char → Option Nat
  | 'b' :: 'b' :: ds => index? ds
  | _ => none

def expectBlockRef : Scan Nat := do
  let column ← nextColumn
  let w ← token
  match readBlockRef w with
  | some id => return id
  | none => failAt column (.expectedBlockRef (String.ofList w))

def expectComma : Scan Unit := expect ',' .expectedComma

def expectName (fault : String → Fault) : Scan String := do
  let column ← nextColumn
  let w ← token
  unless isIdentifier w do failAt column (fault (String.ofList w))
  return String.ofList w

end NativeCode.Ir.Reader
