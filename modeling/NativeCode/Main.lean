import NativeCode.CommandLine.Run

/-!
# The compiler as a program
-/

namespace NativeCode.CommandLine

/-- The files and streams of a process. No program can be started from it. -/
def processHost : Host IO where
  read path := do
    try return some (← IO.FS.readFile path) catch _ => return none
  write path contents := do
    try
      IO.FS.writeFile path contents
      return true
    catch _ => return false
  execute argv := return (127, argv.headD "" ++ ": not found\n")
  out text := do (← IO.getStdout).putStr text
  err text := do (← IO.getStderr).putStr text

end NativeCode.CommandLine

def main (args : List String) : IO UInt32 := do
  return (← NativeCode.CommandLine.runArguments NativeCode.CommandLine.processHost args).toUInt32
