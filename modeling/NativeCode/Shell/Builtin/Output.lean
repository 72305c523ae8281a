import NativeCode.Shell.Builtin.Basic
import NativeCode.Shell.Condition
import NativeCode.Shell.Format

/-!
# Printing and testing

The commands that print their arguments, plainly or by a format, and those that test a condition.
-/

namespace NativeCode.Shell

def printFormatted (args : List String) : Act Unit := do
  match ← options "" args with
  | (_, []) => fatal "usage: printf format [arg ...]"
  | (_, format :: args) =>
    let printed := Format.print format args
    setStatus 0
    for (arg, misfit) in printed.misfits do complain s!"{arg}: {misfit.message}" 1
    match printed.ending with
    | some (.fault f) => complain f.message 2
    | _ => pure ()
    say printed.text

/-- Arguments with blanks between them and an end, unless one of them ends all output. -/
def joined (ending : Bytes) : List String → Bytes
  | [] => ending
  | arg :: args =>
    let (bs, stops) := Format.unescape arg.toList
    if stops then bs
    else if args.isEmpty then bs ++ ending
    else bs ++ ' '.toUInt8 :: joined ending args

def printLine (args : List String) : Act Unit := do
  setStatus 0
  match args with
  | "-n" :: args => say (joined [] args)
  | args => say (joined ['\n'.toUInt8] args)

/-- Arguments on a line as they are, which an option leaves open. -/
def printPlain (args : List String) : Act Unit := do
  setStatus 0
  match args with
  | "-n" :: args => say (.ofString (" ".intercalate args))
  | args => sayLine (" ".intercalate args)

def State.place? (s : State) (path : String) : Option Path := s.files.locate path

def State.inspect (s : State) (op path : String) : Bool :=
  let place := s.place? path
  let isDirectory := path = "/" || (place.map s.files.isDirectory).getD false
  let contents := place.bind s.files.contents?
  match op with
  | "-e" | "-r" | "-w" | "-O" | "-G" => isDirectory || contents.isSome || path = "/dev/null"
  | "-f" => contents.isSome
  | "-d" | "-x" => isDirectory
  | "-s" => isDirectory || contents.any (!·.isEmpty)
  | "-c" => path = "/dev/null"
  | _ => false

def testCondition (args : List String) : Act Unit := do
  match Condition.holds (← get).inspect args.length args with
  | .ok holds => setStatus (if holds then 0 else 1)
  | .error f => fatal f.message

def testBracketed (args : List String) : Act Unit :=
  if args.getLast? = some "]" then testCondition args.dropLast else fatal "missing ]"

end NativeCode.Shell
