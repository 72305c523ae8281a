import NativeCode.Ir.Reader.Statement

/-!
# Reading function bodies

A body is a sequence of labels, each opening a block, of instructions, and of one terminator for
each block. A block may end in a plain return, which then becomes its terminator. A closing brace
ends the body.
-/

namespace NativeCode.Ir.Reader

open NativeCode.Text
open NativeCode.Source (Loc)

structure OpenBlock where
  id : Nat
  instrs : Array Instr := #[]
  term : Option Terminator := none
  deriving Inhabited

structure OpenFunction where
  name : String
  params : List Param
  ret : Ty := .void
  blocks : Array Block := #[]
  current : Option OpenBlock := none
  nextId : Nat := 0
  deriving Inhabited

/-- The finished block: a return at its end is its terminator if it has no other. -/
def OpenBlock.close (b : OpenBlock) : Except Fault Block :=
  match b.term with
  | some t => .ok { id := b.id, instrs := b.instrs.toList, term := t }
  | none =>
    match b.instrs.back? with
    | some last =>
      if last.kind.isRet then
        .ok
          { id := b.id
            instrs := b.instrs.pop.toList
            term := { exit := .ret, value := last.operands.head?, loc := last.loc } }
      else .error (.noTerminator b.id)
    | none => .error (.noTerminator b.id)

namespace OpenFunction

def closeBlock (f : OpenFunction) : Except Fault OpenFunction :=
  match f.current with
  | none => .ok f
  | some b => do
    let block ← b.close
    return { f with blocks := f.blocks.push block, current := none }

def close (f : OpenFunction) : Except Fault Function := do
  let f ← f.closeBlock
  if f.blocks.isEmpty then throw (.noBlocks f.name)
  return { name := f.name, params := f.params, ret := f.ret, blocks := f.blocks.toList }

/-- The number in a label line `bbN:`, if the line has the shape of one. -/
def label? : List Char → Option (List Char)
  | 'b' :: 'b' :: c :: rest =>
    match (c :: rest).reverse with
    | ':' :: d :: ds => some (d :: ds).reverse
    | _ => none
  | _ => none

def openBlock (f : OpenFunction) (line digits : List Char) : Except Fault OpenFunction :=
  match index? digits with
  | none => .error (.malformedLabel (String.ofList line))
  | some id => do return { (← f.closeBlock) with current := some { id } }

/-- Whether a statement can stand here: inside a block that has no terminator yet. -/
def acceptsStatement (f : OpenFunction) : Except Fault Unit :=
  match f.current with
  | none => .error .outsideBlock
  | some b => if b.term.isSome then .error (.afterTerminator b.id) else .ok ()

def push (f : OpenFunction) (loc : Loc) (result : Option Nat) : Statement → OpenFunction
  | .instr kind ty operands =>
    let i : Instr := { id := f.nextId, result, kind, ty, operands, loc }
    { f with
      current := f.current.map fun b => { b with instrs := b.instrs.push i }
      nextId := f.nextId + 1 }
  | .exit exit value =>
    { f with current := f.current.map fun b => { b with term := some { exit, value, loc } } }

/-- Reads one line of a body. The result is the finished function if the line closes it. -/
def readLine (f : OpenFunction) (place : Nat → Loc) (c : Cursor) :
    Except Flaw (OpenFunction ⊕ Function) :=
  let whole (fault : Fault) : Flaw := ⟨fault, c.column⟩
  if c.rest = ['\x7d'] then (f.close.mapError whole).map .inr
  else
    match label? c.rest with
    | some digits => ((f.openBlock c.rest digits).mapError whole).map .inl
    | none => do
      let ((result, statement), _) ← (readStatement f.params f.ret f.acceptsStatement).run c
      return .inl (f.push (place c.column) result statement)

end OpenFunction

end NativeCode.Ir.Reader
