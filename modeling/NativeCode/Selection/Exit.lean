import NativeCode.Selection.Emit

/-!
# Code for returns and block ends

Every return goes through the one epilogue of the function. A jump to the block that is emitted next
is left out, and a branch falls through to it.
-/

namespace NativeCode.Selection

open NativeCode.Machine

/-- Puts the returned value into the result register. `construct` is what failures name. -/
def returnValue (value : Option Ir.Operand) (construct : String) : Emit Unit := do
  let target := (← read).options.target
  let ret := (← (← get).current).ret
  modify fun s => { s with returns := true }
  match value with
  | none => unless ret.isVoid do stop (.valueMissing ret) construct
  | some v =>
    if ret.isVoid then stop .valueFromVoid construct
    if ret.isAggregate then stop (.notReturnable ret) construct
    if ret.isFloat then loadXmmInto v { reg := .phys target.floatResult }
    else loadGprInto v { reg := .phys target.intResult }

def jumpToEpilogue : Emit Unit := do emit .jmp [.label (← get).epilogueLabel]

def earlyReturn (i : Ir.Instr) : Emit Unit := do
  if 1 < i.operands.length then stopHere .retArity i.text
  returnValue i.operands.head? i.text
  jumpToEpilogue

def jumpTo (target : Nat) (next : Option Nat) : Emit Unit := do
  unless next = some target do emit .jmp [.label ((← get).blockLabel target)]

/-- Goes to one of two blocks by a condition in the flags. -/
def jumpOn (cond : Cond) (onTrue onFalse : Nat) (next : Option Nat) : Emit Unit := do
  let s ← get
  if next = some onTrue then emit (.jcc cond.invert) [.label (s.blockLabel onFalse)]
  else
    emit (.jcc cond) [.label (s.blockLabel onTrue)]
    unless next = some onFalse do emit .jmp [.label (s.blockLabel onFalse)]

/-- Goes to one of two blocks by the value of an operand. -/
def jumpOnValue (condition : Ir.Operand) (onTrue onFalse : Nat) (next : Option Nat) :
    Emit Unit := do
  let ty ← typeOf condition
  unless ty.isInteger do stop (.conditionNotInteger condition ty)
  match ← constantValue condition with
  | some bits => jumpTo (if bits ≠ 0 then onTrue else onFalse) next
  | none =>
    let src ← gprSource condition
    emit .cmp [.imm 0, src]
    jumpOn .ne onTrue onFalse next

/-- A conditional jump: by the flags of the comparison before it, if one is pending, else by its
operand. -/
def branch (value : Option Ir.Operand) (onTrue onFalse : Nat) (next : Option Nat) : Emit Unit := do
  if onTrue = onFalse then
    modify fun s => { s with pending := none }
    jumpTo onTrue next
  else
    match value with
    | none => stop .conditionMissing
    | some condition =>
      match (← get).pending with
      | some cond =>
        modify fun s => { s with pending := none }
        jumpOn cond onTrue onFalse next
      | none => jumpOnValue condition onTrue onFalse next

/-- The code of the end of a block; `next` is the block that is emitted after it. -/
def leave (t : Ir.Terminator) (next : Option Nat) : Emit Unit := do
  match t.exit with
  | .ret =>
    returnValue t.value t.text
    if next.isSome then jumpToEpilogue
  | .jump target => jumpTo target next
  | .branch onTrue onFalse => branch t.value onTrue onFalse next
  | .unreachable =>
    if (← read).options.unreachable = .trap then emit .ud2 [] "unreachable"

end NativeCode.Selection
