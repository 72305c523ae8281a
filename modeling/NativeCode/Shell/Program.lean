import NativeCode.Shell.Builtin.Output

/-!
# Programs outside the shell

A few programs that run no script: they copy or count what they read, count up, or do nothing. Their
complaints name the program and no line.
-/

namespace NativeCode.Shell

/-- A complaint of a program, which then ends with a failure. -/
def refuse (text : String) : Act Unit := do
  discard <| write 2 (.ofString (text ++ "\n"))
  setStatus 1

def refuseCall (program text : String) : Act Unit :=
  refuse s!"{program}: {text}\nTry '{program} --help' for more information."

/-- What a path leads to: the input for a minus. A reason is given if it cannot be read. -/
def contentsAt (path : String) : Act (Except String Bytes) := do
  let s ← get
  let place := s.place? path
  if path = "-" then
    let bs ← pending 0
    leaveBytes 0 []
    return .ok bs
  else if path = "/dev/null" then return .ok []
  else if path = "/" || (place.map s.files.isDirectory).getD false then
    return .error "Is a directory"
  else
    match place.bind s.files.contents? with
    | some text => return .ok (.ofString text)
    | none => return .error "No such file or directory"

/-- The first option among arguments, if there are any. -/
def firstOption? (args : List String) : Option Char :=
  args.findSome? fun arg => match arg.toList with
    | '-' :: c :: _ => some c
    | _ => none

def copyFiles : List String → Act Unit
  | [] => return ()
  | path :: paths => do
    match ← contentsAt path with
    | .ok bs => discard <| write 1 bs
    | .error reason => refuse s!"cat: {path}: {reason}"
    copyFiles paths

/-- The program that copies files, or its input if none is given. -/
def concatenate (args : List String) : Act Unit := do
  setStatus 0
  match firstOption? args with
  | some c => refuseCall "cat" s!"invalid option -- '{c}'"
  | none => copyFiles (if args.isEmpty then ["-"] else args)

def takeLines : Nat → Bytes → Bytes
  | 0, _ | _, [] => []
  | n + 1, b :: bs => b :: takeLines (if b = '\n'.toUInt8 then n else n + 1) bs

/-- The program that copies the first lines or bytes of its input or of a file. -/
def copyFirst (args : List String) : Act Unit := do
  setStatus 0
  let (inBytes, count, paths) : Bool × String × List String := match args with
    | "-n" :: count :: paths => (false, count, paths)
    | "-c" :: count :: paths => (true, count, paths)
    | arg :: paths =>
      match arg.toList with
      | '-' :: 'n' :: count => (false, String.ofList count, paths)
      | '-' :: 'c' :: count => (true, String.ofList count, paths)
      | '-' :: d :: count => (false, String.ofList (d :: count), paths)
      | _ => (false, "10", args)
    | [] => (false, "10", [])
  let unit := if inBytes then "bytes" else "lines"
  match Text.digits? 10 count.toList with
  | none => refuse s!"head: invalid number of {unit}: '{count}'"
  | some n =>
    let path := paths.headD "-"
    match ← contentsAt path with
    | .ok bs => discard <| write 1 (if inBytes then bs.take n else takeLines n bs)
    | .error reason => refuse s!"head: cannot open '{path}' for reading: {reason}"

/-- The number of words in bytes, after a blank or not. -/
def countWords (afterBlank : Bool) : Bytes → Nat
  | [] => 0
  | b :: bs =>
    let isBlank := b = 32 || (9 ≤ b && b ≤ 13)
    (if afterBlank && !isBlank then 1 else 0) + countWords isBlank bs

/-- The program that counts lines, words and bytes of its input or of a file. -/
def countAll (args : List String) : Act Unit := do
  setStatus 0
  let (flags, paths) := args.partition fun arg => arg.startsWith "-" && arg != "-"
  let letters := flags.flatMap (·.toList.tail)
  match letters.find? fun c => !"lwcm".contains c with
  | some c => refuseCall "wc" s!"invalid option -- '{c}'"
  | none =>
    let path := paths.headD "-"
    match ← contentsAt path with
    | .error reason => refuse s!"wc: {path}: {reason}"
    | .ok bs =>
      let shown (c : Char) : Bool := letters.isEmpty || letters.contains c
      let counts := (if shown 'l' then [bs.count '\n'.toUInt8] else []) ++
        (if shown 'w' then [countWords true bs] else []) ++
        (if shown 'c' || letters.contains 'm' then [bs.length] else [])
      let width := if 1 < counts.length && paths.isEmpty then 7 else 0
      let texts := counts.map fun n => String.ofList ((Nat.toDigits 10 n).leftpad width ' ')
      sayLine (" ".intercalate (texts ++ paths.take 1))

/-- The integers from a first one on in steps, a given number of them. -/
def progression (step : Int) : Nat → Int → List Int
  | 0, _ => []
  | n + 1, first => first :: progression step n (first + step)

/-- The number of steps that stay at or before the last integer. -/
def progressionLength (first step last : Int) : Nat :=
  if 0 < step then ((last - first).fdiv step + 1).toNat
  else ((first - last).fdiv (-step) + 1).toNat

/-- The program that counts from an integer to another. -/
def countUp (args : List String) : Act Unit := do
  setStatus 0
  match args.mapM String.toInt?, args with
  | _, [] => refuseCall "seq" "missing operand"
  | none, _ =>
    let wrong := (args.find? fun arg => arg.toInt?.isNone).getD ""
    refuseCall "seq" s!"invalid floating point argument: '{wrong}'"
  | some ns, _ =>
    let (first, step, last) := match ns with
      | [last] => (1, 1, last)
      | [first, last] => (first, 1, last)
      | first :: step :: last :: _ => (first, step, last)
      | [] => (1, 1, 0)
    if 3 < ns.length then
      let extra := args.getD 3 ""
      refuseCall "seq" s!"extra operand '{extra}'"
    else if step = 0 then
      let zero := args.getD 1 ""
      refuseCall "seq" s!"invalid Zero increment value: '{zero}'"
    else
      let values := progression step (progressionLength first step last) first
      discard <| write 1 (values.flatMap fun n => Bytes.ofString s!"{n}\n")

def passTime (args : List String) : Act Unit :=
  if args.isEmpty then refuseCall "sleep" "missing operand" else setStatus 0

def program? : String → Option (List String → Act Unit)
  | "cat" => some concatenate
  | "head" => some copyFirst
  | "wc" => some countAll
  | "seq" => some countUp
  | "sleep" => some passTime
  | "true" => some (finishWith 0)
  | "false" => some (finishWith 1)
  | "echo" => some printPlain
  | "printf" => some printFormatted
  | "test" => some testCondition
  | "[" => some testBracketed
  | _ => none

/-- The program that a command name stands for: programs can be named by their path. -/
def programName? (name : String) : Option String :=
  match name.splitOn "/" with
  | ["", "bin", program] | ["", "usr", "bin", program] => some program
  | [program] => some program
  | _ => none

end NativeCode.Shell
