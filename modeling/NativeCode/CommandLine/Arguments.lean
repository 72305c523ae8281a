import NativeCode.Options

/-!
# Arguments of the compiler

The compiler takes one input file and flags. Arguments are read from left to right, and the first
one that does not fit is reported with the usage text.
-/

namespace NativeCode.CommandLine

/-- What a run is asked to do. An empty path stands for a file that is not asked for. -/
structure Request where
  input : String := ""
  asm : String := ""
  object : String := ""
  map : String := ""
  options : Options := {}
  deriving DecidableEq, Inhabited

inductive Rejection where
  | noArguments
  | valueMissing (flag : String)
  | unknownConvention (name : String)
  | unknownPolicy (name : String)
  | unknownFlag (flag : String)
  | secondInput
  | noInput
  deriving DecidableEq, Inhabited

def usage : String :=
  "usage: kestrelc <input.kir> [-S <out.s>] [-c <out.o>] [--abi sysv|win64]\n" ++
  "                [--emit-map <out.map>] [--unreachable trap|none]\n" ++
  "                [--no-comments] [--symbol-prefix <prefix>] [--trace]\n"

namespace Rejection

/-- The reason of a rejection. Without arguments there is none. -/
def reason? : Rejection → Option String
  | noArguments => none
  | valueMissing flag => some s!"{flag} requires a value"
  | unknownConvention name => some s!"unknown calling convention '{name}'"
  | unknownPolicy name => some s!"unknown unreachable policy '{name}'"
  | unknownFlag flag => some s!"unknown flag '{flag}'"
  | secondInput => some "more than one input file"
  | noInput => some "no input file"

/-- The wording of a rejection: its reason, then the usage text. -/
def message (r : Rejection) : String :=
  match r.reason? with
  | some reason => s!"error: {reason}\n{usage}"
  | none => usage

end Rejection

/-- The flags that take the next argument as their value. -/
inductive ValueFlag where
  | asm
  | object
  | map
  | convention
  | unreachable
  | stem
  deriving DecidableEq, Inhabited

namespace ValueFlag

def ofText? : String → Option ValueFlag
  | "-S" => some asm
  | "-c" => some object
  | "--emit-map" => some map
  | "--abi" => some convention
  | "--unreachable" => some unreachable
  | "--symbol-prefix" => some stem
  | _ => none

def set (r : Request) (value : String) : ValueFlag → Except Rejection Request
  | asm => .ok { r with asm := value }
  | object => .ok { r with object := value }
  | map => .ok { r with map := value, options := { r.options with lineMap := true } }
  | convention =>
    match Abi.Convention.ofName? value with
    | some c => .ok { r with options := { r.options with convention := c } }
    | none => .error (.unknownConvention value)
  | unreachable =>
    match UnreachablePolicy.ofName? value with
    | some p => .ok { r with options := { r.options with unreachable := p } }
    | none => .error (.unknownPolicy value)
  | stem => .ok { r with options := { r.options with stem := value } }

end ValueFlag

namespace Request

/-- A request after an argument that is no flag with a value. -/
def take (r : Request) (arg : String) : Except Rejection Request :=
  if arg = "--no-comments" then .ok { r with options := { r.options with comments := false } }
  else if arg = "--trace" then .ok { r with options := { r.options with trace := true } }
  else if arg.startsWith "-" then .error (.unknownFlag arg)
  else if r.input ≠ "" then .error .secondInput
  else .ok { r with input := arg }

def takeAll (r : Request) : List String → Except Rejection Request
  | [] => if r.input = "" then .error .noInput else .ok r
  | arg :: rest =>
    match ValueFlag.ofText? arg with
    | none => do (← r.take arg).takeAll rest
    | some flag =>
      match rest with
      | [] => .error (.valueMissing arg)
      | value :: rest => do (← flag.set r value).takeAll rest

def ofArguments : List String → Except Rejection Request
  | [] => .error .noArguments
  | args => takeAll {} args

end Request

end NativeCode.CommandLine
