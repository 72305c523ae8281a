import NativeCode.Selection.Arith
import NativeCode.Selection.Call
import NativeCode.Selection.Exit
import NativeCode.Selection.Memory

/-!
# Code for instructions and terminators

The code of an instruction is chosen by its kind. A failure that does not say where it happened gets
the instruction or terminator that was compiled.
-/

namespace NativeCode.Selection

open NativeCode.Machine

def instrCode (i : Ir.Instr) : Emit Unit :=
  match i.kind with
  | .binary op => binary i op
  | .load => load i
  | .store => store i
  | .call name => call i name
  | .ret => earlyReturn i
  | .alloca => alloca i
  | .const => constant i

/-- Compiles an instruction into the open block; `fused` leaves the result of a comparison in the
flags. -/
def selectInstr (o : Options) (i : Ir.Instr) (fused : Bool) :
    StateT Session (Except Failure) Unit :=
  fun s =>
    ((instrCode i).run { options := o, origin := i.loc, flagsOnly := fused } s).mapError fun f =>
      f.locate i.text i.loc

/-- Compiles a terminator into the open block; `next` is the block that is emitted after it. -/
def selectTerm (o : Options) (t : Ir.Terminator) (next : Option Nat) :
    StateT Session (Except Failure) Unit :=
  fun s =>
    ((leave t next).run { options := o, origin := t.loc } s).mapError fun f =>
      f.locate t.text t.loc

end NativeCode.Selection
