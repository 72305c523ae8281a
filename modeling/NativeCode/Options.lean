import NativeCode.Abi.Target

/-!
# Options of a compilation
-/

namespace NativeCode

open NativeCode.Abi (Convention)

/-- What is emitted for a point that cannot be reached. -/
inductive UnreachablePolicy where
  /-- An instruction that traps. -/
  | trap
  /-- Nothing. -/
  | silent
  deriving DecidableEq, Inhabited

namespace UnreachablePolicy

def name : UnreachablePolicy → String
  | trap => "trap"
  | silent => "none"

def ofName? (text : String) : Option UnreachablePolicy :=
  if text = "trap" then some trap else if text = "none" then some silent else none

end UnreachablePolicy

structure Options where
  convention : Convention := .sysv
  unreachable : UnreachablePolicy := .trap
  comments : Bool := true
  lineMap : Bool := false
  /-- Bytes that a frame can take below the saved frame pointer. -/
  maxFrame : Nat := 1048576
  /-- What stands in front of the names that a module defines. -/
  stem : String := ""
  trace : Bool := false
  deriving DecidableEq, Inhabited

def Options.target (o : Options) : Abi.Target := o.convention.target

end NativeCode
