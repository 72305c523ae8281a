import NativeCode.CommandLine.Arguments
import NativeCode.CommandLine.Host
import NativeCode.Compile.Module
import NativeCode.Ir.Reader.Module

/-!
# Runs of the compiler

A run reads the input file, compiles it, and writes assembly, line map and object file as far as
they are asked for. It stops with status 1 at the first thing that fails.
-/

namespace NativeCode.CommandLine

open NativeCode.Source (Diagnostic Registry)

variable {m : Type → Type} [Monad m]

def writeOutput (h : Host m) (path contents : String) : ExceptT Nat m Unit := do
  if !(← h.write path contents) then
    h.err s!"error: unable to open {path}\n"
    throw 1

/-- A value, or the end of the run after its diagnostic. -/
def orReport {ε α : Type} (h : Host m) (sources : Registry) (diagnostic : ε → Diagnostic) :
    Except ε α → ExceptT Nat m α
  | .ok a => pure a
  | .error e => do
    h.err ((diagnostic e).renderIn sources)
    throw 1

/-- Compiles the input file of a request. The status is thrown where the run ends early. -/
def compileFile (h : Host m) (r : Request) : ExceptT Nat m Unit := do
  let some text ← h.read r.input
    | do
      h.err s!"error: unable to open {r.input}\n"
      throw 1
  let (file, sources) := ({} : Registry).add r.input
  let module ← orReport h sources Ir.Reader.Error.diagnostic (Ir.Reader.readModule file text)
  let output ← orReport h sources Failure.diagnostic (Compile.compileModule r.options module)
  h.err output.trace
  if r.asm = "" then h.out output.asm else writeOutput h r.asm output.asm
  if r.map ≠ "" then
    if let some map := output.map then writeOutput h r.map map
  if r.object ≠ "" then
    let asmPath := if r.asm = "" then r.object ++ ".s" else r.asm
    orReport h sources Failure.diagnostic (← liftM (assemble h output.asm asmPath r.object))

/-- Does what a request asks, and gives the exit status. -/
def perform (h : Host m) (r : Request) : m Nat := do
  match ← (compileFile h r).run with
  | .ok () => return 0
  | .error status => return status

/-- A run from its arguments. Arguments that are refused give status 1. -/
def runArguments (h : Host m) (args : List String) : m Nat := do
  match Request.ofArguments args with
  | .ok r => perform h r
  | .error rejection =>
    h.err rejection.message
    return 1

end NativeCode.CommandLine
