import NativeCode.Failure
import NativeCode.Shell.Run

/-!
# The surroundings of a run

A run of the compiler reads and writes files, runs an assembler and prints on two streams. What
these actions do is left to a host; one host is a tree of files in memory.
-/

namespace NativeCode.CommandLine

structure Host (m : Type → Type) where
  /-- The contents of a file that can be opened. -/
  read : String → m (Option String)
  /-- Writes a file, and says whether it could be opened. -/
  write : String → String → m Bool
  /-- Runs a program with arguments, and gives its status and output. -/
  execute : List String → m (Nat × String)
  out : String → m Unit
  err : String → m Unit

variable {m : Type → Type} [Monad m]

/-- Writes assembly to a file and has a program assemble it to an object file. -/
def assemble (h : Host m) (assembly asmPath objectPath : String) (driver : String := "cc") :
    m (Except Failure Unit) := do
  if !(← h.write asmPath assembly) then return fail (.cannotOpen asmPath)
  let (status, output) ← h.execute [driver, "-c", asmPath, "-o", objectPath]
  if status = 0 then return .ok ()
  return fail (.assemblerExit driver status asmPath output)

structure World where
  files : Files := {}
  out : String := ""
  err : String := ""
  deriving DecidableEq, Inhabited

def memory : Host (StateM World) where
  read path := do return (← get).files.read? path
  write path contents := modifyGet fun w =>
    match w.files.write? path contents with
    | some files => (true, { w with files })
    | none => (false, w)
  execute argv := modifyGet fun w =>
    let r := Shell.run w.files argv
    ((r.status, r.output), { w with files := r.files })
  out text := modify fun w => { w with out := w.out ++ text }
  err text := modify fun w => { w with err := w.err ++ text }

end NativeCode.CommandLine
