import NativeCode.Shell.Builtin.Basic

/-!
# Control of the shell

The commands that leave loops, functions and the shell, and those that set its options, its
parameters and the script that it runs at its end.
-/

namespace NativeCode.Shell

def leaveLoops (jump : Nat → Jump) (args : List String) : Act Unit := do
  let n ← args.head?.elim (pure 1) number
  if n = 0 then fatal ("Illegal number: " ++ args.headD "")
  setStatus 0
  let n := min n (← get).loops
  if 0 < n then throw (jump n)

/-- Jumps with a status, by default that of the last command. -/
def leaveWith (jump : Jump) (args : List String) : Act Unit := do
  match args with
  | [] => pure ()
  | arg :: _ => setStatus (← number arg)
  throw jump

def shiftParameters (args : List String) : Act Unit := do
  let n ← args.head?.elim (pure 1) number
  let s ← get
  if s.parameters.length < n then fatal "can't shift that many"
  set { s with parameters := s.parameters.drop n, status := 0 }

def setOptions (isOn : Bool) : List Char → Act Unit
  | [] => return ()
  | c :: cs => do
    match (← get).options.set? isOn c with
    | some options => modify ({ · with options })
    | none => fatal s!"Illegal option -{c}"
    setOptions isOn cs

def setNamed (isOn : Bool) (name : String) : Act Unit := do
  match Options.table.lookup name with
  | some c => setOptions isOn [c]
  | none => fatal s!"Illegal option -o {name}"

/-- Shows all options, as settings or as the commands that set them. -/
def showOptions (asCommands : Bool) : Act Unit := do
  let letters := (← get).options.letters
  let names := Options.table ++ [("nolog", '-'), ("debug", '-')]
  if !asCommands then sayLine "Current option settings"
  for (name, c) in names do
    let isOn := letters.contains c
    if asCommands then sayLine ((if isOn then "set -o " else "set +o ") ++ name)
    else
      let filled := String.ofList (name.toList.rightpad 16 ' ')
      sayLine (filled ++ if isOn then "on" else "off")

def setShell : List String → Act Unit
  | [] => setStatus 0
  | ["-o"] => setStatus 0 *> showOptions false
  | ["+o"] => setStatus 0 *> showOptions true
  | "-o" :: name :: args => setNamed true name *> setShell args
  | "+o" :: name :: args => setNamed false name *> setShell args
  | arg :: args => do
    let replace (parameters : List String) : Act Unit :=
      modify ({ · with parameters, status := 0 })
    match arg.toList with
    | ['-', '-'] => replace args
    | ['-'] =>
      setOptions false ['x', 'v']
      if args.isEmpty then setStatus 0 else replace args
    | '-' :: c :: cs => setOptions true (c :: cs) *> setShell args
    | '+' :: c :: cs => setOptions false (c :: cs) *> setShell args
    | _ => replace (arg :: args)

/-- The names of signals, by their numbers. The first is the end of the shell. -/
def signals : List String :=
  ["EXIT", "HUP", "INT", "QUIT", "ILL", "TRAP", "ABRT", "BUS", "FPE", "KILL", "USR1", "SEGV",
    "USR2", "PIPE", "ALRM", "TERM", "STKFLT", "CHLD", "CONT", "STOP", "TSTP", "TTIN", "TTOU", "URG",
    "XCPU", "XFSZ", "VTALRM", "PROF", "WINCH", "POLL", "PWR", "SYS"]

/-- The number of a signal that is given by its name or its number. -/
def signal? (text : String) : Option Nat :=
  match Text.digits? 10 text.toList with
  | some n => if n ≤ 64 then some n else none
  | none => signals.findIdx? (· == text)

/-- Sets the scripts to run on signals, of which only the end of the shell comes, or shows the
script for it. -/
def setFarewell (args : List String) : Act Unit := do
  setStatus 0
  let (script, names) := match args with
    | [name] => ("-", [name])
    | args => (args.headD "-", args.tail)
  if args.isEmpty then
    if let some script := (← get).farewell then sayLine s!"trap -- {singleQuoted script} EXIT"
  for name in names do
    match signal? name with
    | some n =>
      if n = 0 then modify ({ · with farewell := if script = "-" then none else some script })
    | none =>
      discard <| write 2 (.ofString s!"trap: {name}: bad trap\n")
      setStatus 1

/-- Waits for commands that are not waited for. None is ever left. -/
def waitFor (args : List String) : Act Unit := do
  setStatus 0
  for arg in args do
    if arg.startsWith "%" then fatal s!"No such job: {arg}"
    discard <| number arg
    setStatus 127

def sendSignal (args : List String) : Act Unit := do
  let targets := if (args.headD "").startsWith "-" then args.tail else args
  if targets.isEmpty then
    fatal "Usage: kill [-s sigspec | -signum | -sigspec] [pid | job]... or\nkill -l [exitstatus]"
  for target in targets do discard <| number target
  setStatus 0

end NativeCode.Shell
