import NativeCode.Shell.Builtin.Control
import NativeCode.Shell.Builtin.Output
import NativeCode.Shell.Builtin.Variables

/-!
# Commands of the shell

The commands that the shell knows by itself and that run no other script. Each takes its arguments
and sets the status; a complaint can end it.
-/

namespace NativeCode.Shell

/-- Changes to a directory, which must be there. All paths stay relative to the root. -/
def changeDirectory (args : List String) : Act Unit := do
  let path := args.headD "."
  let s ← get
  let isThere := ((s.place? path).map s.files.isDirectory).getD false
  if path.isEmpty || path = "/" || isThere then setStatus 0
  else fatal s!"can't cd to {path}"

def showDirectory (args : List String) : Act Unit := do
  discard <| options "LP" args
  setStatus 0
  sayLine (((← get).value? "PWD").getD "/")

/-- Shows the permissions that new files do not have, which cannot be changed. -/
def showMask (args : List String) : Act Unit := do
  let (letters, args) ← options "S" args
  setStatus 0
  if args.isEmpty then sayLine (if letters.isEmpty then "0022" else "u=rwx,g=rx,o=rx")

/-- The commands of the shell that run no other script. -/
def builtin? : String → Option (List String → Act Unit)
  | ":" | "true" | "alias" => some (finishWith 0)
  | "jobs" | "hash" => some fun args => options "" args *> setStatus 0
  | "wait" => some waitFor
  | "kill" => some sendSignal
  | "bg" | "fg" => some fun _ => fatal "No current job"
  | "false" => some (finishWith 1)
  | "echo" => some printLine
  | "printf" => some printFormatted
  | "test" => some testCondition
  | "[" => some testBracketed
  | "break" => some (leaveLoops .breakLoop)
  | "continue" => some (leaveLoops .continueLoop)
  | "exit" => some (leaveWith .exit)
  | "return" => some (leaveWith .leave)
  | "shift" => some shiftParameters
  | "set" => some setShell
  | "export" => some (declare "export" (·.exported) ({ · with exported := true }))
  | "readonly" => some (declare "readonly" (·.fixed) ({ · with fixed := true }))
  | "local" => some declareLocal
  | "unset" => some unsetNames
  | "read" => some readLine
  | "trap" => some setFarewell
  | "cd" | "chdir" => some changeDirectory
  | "pwd" => some showDirectory
  | "umask" => some showMask
  | _ => none

end NativeCode.Shell
