import NativeCode.Shell.Builtin
import NativeCode.Shell.Program
import NativeCode.Shell.Quote
import NativeCode.Shell.Script

/-!
# Running shell scripts

A shell runs the complete commands of its script one after the other. Programs outside the shell are
few: another shell, and those that only copy or do nothing. A reader at the end of the output sees
it line by line.
-/

namespace NativeCode.Shell

/-! ### Redirections -/

/-- Makes a descriptor write a file from its start or its end. -/
def openOutput (fd : Nat) (path : String) (append force : Bool) : Act Bool := do
  let s ← get
  match path with
  | "/dev/null" => lead fd (some .null); return true
  | "/dev/stdout" => lead fd (s.descriptors.lookup 1); return true
  | "/dev/stderr" => lead fd (s.descriptors.lookup 2); return true
  | _ =>
    match s.place? path with
    | none => complain s!"cannot create {path}: Directory nonexistent" 2; return false
    | some place =>
      if s.files.isDirectory place then
        complain s!"cannot create {path}: Is a directory" 2
        return false
      if s.options.keepsFiles && !append && !force && (s.files.contents? place).isSome then
        complain s!"cannot create {path}: File exists" 2
        return false
      let held := if append then (s.files.contents? place).getD "" else ""
      set { s with files := s.files.put place held }
      lead fd (some (.file place))
      return true

def openInput (fd : Nat) (path : String) : Act Bool := do
  let s ← get
  match path, s.place? path >>= s.files.contents? with
  | "/dev/null", _ => lead fd (some .null); return true
  | _, some text => lead fd (some (← newPipe (.ofString text))); return true
  | _, none =>
    complain s!"cannot open {path}: No such file" 2
    return false

/-- Makes a descriptor lead to where another one leads, or nowhere. -/
def copyDescriptor (fd : Nat) (source : String) : Act Bool := do
  match source.toList with
  | ['-'] => lead fd none; return true
  | [c] =>
    if !c.isDigit then fatal "Syntax error: Bad fd number"
    match (← get).descriptors.lookup (c.toNat - '0'.toNat) with
    | some channel => lead fd (some channel); return true
    | none =>
      lead fd none
      complain s!"{source}: Bad file descriptor" 2
      return false
  | _ => fatal "Syntax error: Bad fd number"

/-- Follows redirections in order, and says whether none of them failed. -/
def redirect (insert : Nat → List Char → Act String) (n : Nat) : List Redirect → Act Bool
  | [] => return true
  | r :: rs => do
    let target := expandText insert n r.target
    let done ← match r.kind with
      | .write force => do openOutput r.fd (← target) false force
      | .append => do openOutput r.fd (← target) true false
      | .read | .update => do openInput r.fd (← target)
      | .copy => do copyDescriptor r.fd (← target)
      | .document text fixed => do
        let text ← if fixed then pure (String.ofList text)
          else expandText insert n (parts .document text)
        lead r.fd (some (← newPipe (.ofString text)))
        pure true
    if done then redirect insert n rs else return false

/-! ### Loops and scopes -/

/-- Runs the body of a loop, and says whether the loop goes on. -/
def inLoop (body : Act Unit) : Act Bool :=
  try
    body
    return true
  catch
    | .breakLoop n => if n ≤ 1 then return false else throw (.breakLoop (n - 1))
    | .continueLoop n => if n ≤ 1 then return true else throw (.continueLoop (n - 1))
    | j => throw j

def nestLoop (act : Act Unit) : Act Unit := do
  let loops := (← get).loops
  modify ({ · with loops := loops + 1 })
  try
    act
    modify ({ · with loops })
  catch j =>
    modify ({ · with loops })
    throw j

/-- Repeats a body, at most a number of times, while the test succeeds or until it does. The status
is that of the last round. -/
def repeatBody (isUntil : Bool) (test body : Act Unit) : Nat → Nat → Act Unit
  | 0, status => setStatus status
  | n + 1, status => do
    let goesOn ← inLoop test
    if !goesOn || ((← get).status == 0) == isUntil then setStatus status
    else
      let goesOn ← inLoop body
      let status := (← get).status
      if goesOn then repeatBody isUntil test body n status

def repeatFor (name : String) (body : Act Unit) : List String → Act Unit
  | [] => return ()
  | value :: values => do
    assign name value
    if ← inLoop body then repeatFor name body values

def testing (act : Act Unit) : Act Unit := do
  let tested := (← get).tested
  modify ({ · with tested := true })
  act
  modify ({ · with tested })

/-- Ends the shell after a failure that no one looks at, if it has to. -/
def checkFailure : Act Unit := do
  let s ← get
  if s.status != 0 && s.options.exitsOnFailure && !s.tested then throw .exit

def maxCalls : Nat := 1000

/-- Runs an action as the body of a function with parameters. -/
def inFunction (parameters : List String) (body : Act Unit) : Act Unit := do
  let s ← get
  if s.calls = maxCalls then fatal s!"Maximum function recursion depth ({maxCalls}) reached"
  set { s with parameters, locals := some [], loops := 0, calls := s.calls + 1 }
  let restore : Act Unit := modify fun t =>
    let t := (t.locals.getD []).foldl (fun t (name, v) => t.put name v) t
    { t with parameters := s.parameters, locals := s.locals, loops := s.loops, calls := s.calls }
  try
    body
    restore
  catch
    | .leave => restore
    | j => do
      restore
      throw j

/-- Runs a command under its name, which complaints then mention. A complaint ends the command; it
ends the shell only if the command is special. -/
def runBuiltin {α : Type} [Inhabited α] (name : String) (isSpecial : Bool) (act : Act α) :
    Act α := do
  let running := (← get).running
  modify ({ · with running := some name })
  try
    let a ← act
    modify ({ · with running })
    return a
  catch j =>
    modify ({ · with running })
    if j = .failed && !isSpecial then return default else throw j

/-! ### Names of commands -/

def runners : List String := [".", "command", "eval", "exec", "type"]

def notFound (name : String) : Act Unit := do
  let s ← get
  let place := s.place? name
  let found := name.contains '/' && (name = "/" || name = "/dev/null" || (place.map fun p =>
    s.files.isDirectory p || (s.files.contents? p).isSome).getD false)
  if name.isEmpty then complain s!"{name}: Permission denied" 127
  else if found then complain s!"{name}: Permission denied" 126
  else complain s!"{name}: not found" 127

/-- Says what a command name stands for, and whether it stands for anything. -/
def describe (isShort : Bool) (name : String) : Act Bool := do
  let known := (builtin? name).isSome || runners.contains name
  let long (kind : String) : String := if isShort then name else s!"{name} is {kind}"
  if Script.keywords.contains name then sayLine (long "a shell keyword")
  else if Script.specialNames.contains name then sayLine (long "a special shell builtin")
  else if ((← get).functions.lookup name).isSome then sayLine (long "a shell function")
  else if known then sayLine (long "a shell builtin")
  else if (program? name).isSome || name = "sh" then
    sayLine (if isShort then s!"/usr/bin/{name}" else s!"{name} is /usr/bin/{name}")
  else
    if !isShort then sayLine s!"{name}: not found"
    return false
  return true

def describeAll (isShort : Bool) (names : List String) : Act Unit := do
  setStatus 0
  for name in names do
    if !(← describe isShort name) then setStatus 127

/-- The words of a command that is to run directly, unless its names are only to be described. -/
def commandRest (args : List String) : Act (List String) := do
  let (letters, args) ← options "pvV" args
  if letters.contains 'v' || letters.contains 'V' then
    describeAll (letters.contains 'v') (args.take 1)
    return []
  else return args

/-! ### Commands -/

/-- The words of a command expanded. The values of declarations are not split. -/
def expandCommand (insert : Nat → List Char → Act String) (n : Nat) (ws : List (List Part)) :
    Act (List String) := do
  let declares := match ws with
    | w :: _ => ["export", "readonly", "local"].contains ((Script.plainText? w).getD "")
    | [] => false
  let expandOne (w : List Part) : Act (List String) := do
    if declares && (Script.assignment? w).isSome then return [← expandText insert n w]
    expandWords insert n [w]
  return (← ws.mapM expandOne).flatten

/-- Assigns variables in order, and gives their texts as they are shown. -/
def assignAll (insert : Nat → List Char → Act String) (n : Nat) :
    List (String × List Part) → Act (List String)
  | [] => return []
  | (name, w) :: as => do
    let value ← expandText insert n w
    assign name value
    return (name ++ "=" ++ value) :: (← assignAll insert n as)

/-- Shows a command on a channel if that is asked for. -/
def showCommand (channel : Option Channel) (words : List String) : Act Unit := do
  let s ← get
  if s.options.traces then
    let line := (s.value? "PS4").getD "+ " ++ " ".intercalate words ++ "\n"
    modify (·.send (.ofString line) (channel.getD .null))

def State.environment (s : State) : List (String × Variable) :=
  s.bindings.filter fun (_, v) => v.exported

/-- Runs an action in a new shell with a name and parameters. -/
def newShell (name : String) (parameters : List String) (act : Act Unit) : Act Unit := do
  modify fun s =>
    { files := s.files, output := s.output, pipes := s.pipes, descriptors := s.descriptors,
      name, parameters, bindings := s.environment }
  act

structure Scripts where
  /-- In the shell as it is. -/
  here : List Char → Act Unit
  /-- As a whole: what is to run at the end runs as well. -/
  whole : List Char → Act Unit

def runShell (scripts : Scripts) (name : String) : List String → Act Unit
  | [] => isolated (newShell name [] do
    let bs ← pending 0
    leaveBytes 0 []
    scripts.whole bs.toText.toList)
  | arg :: args => do
    let refuseStart (text : String) : Act Unit :=
      isolated (newShell name [] do
        modify ({ · with line := 0 })
        fatal text)
    let withOptions (letters : List Char) (act : Act Unit) : Act Unit := do
      let valid := letters.filter (· != 'c')
      match valid.find? fun c => (({} : Options).set? true c).isNone with
      | some c => refuseStart s!"Illegal option -{c}"
      | none => isolated (newShell name [] (setOptions true valid *> act))
    match arg.toList with
    | '-' :: c :: cs =>
      if (c :: cs).contains 'c' then
        match args with
        | [] => refuseStart "-c requires an argument"
        | script :: rest =>
          withOptions (c :: cs) do
            modify ({ · with name := rest.headD name, parameters := rest.tail })
            scripts.whole script.toList
      else
        match args with
        | "-c" :: script :: rest =>
          withOptions (c :: cs) do
            modify ({ · with name := rest.headD name, parameters := rest.tail })
            scripts.whole script.toList
        | _ => withOptions (c :: cs) (pure ())
    | _ =>
      let s ← get
      match s.place? arg >>= s.files.contents? with
      | some script => isolated (newShell arg args (scripts.whole script.toList))
      | none => refuseStart s!"cannot open {arg}: No such file"

def runProgram (scripts : Scripts) (name : String) (args : List String) : Act Unit := do
  match programName? name with
  | some "sh" => runShell scripts name args
  | some program =>
    match program? program with
    | some act => isolated do
      modify ({ · with running := none })
      act args
    | none => notFound name
  | none => notFound name

/-- Runs a command given by its words. If it is not `direct`, functions count and a complaint of a
special command ends the shell. -/
def runWords (scripts : Scripts) (call : Command → Act Unit) (direct : Bool) :
    Nat → List String → Act Unit
  | 0, _ | _, [] => return ()
  | depth + 1, name :: args => do
    let s ← get
    let isSpecial := !direct && Script.specialNames.contains name
    match name, s.functions.lookup name, builtin? name with
    | "eval", _, _ =>
      runBuiltin name isSpecial do
        setStatus 0
        scripts.here (" ".intercalate args).toList
    | ".", _, _ =>
      runBuiltin name isSpecial do
        match s.place? (args.headD "") >>= s.files.contents? with
        | some text =>
          modify ({ · with status := 0, running := args.head? })
          try scripts.here text.toList catch
            | .leave => pure ()
            | j => throw j
        | none => fatal ("cannot open " ++ args.headD "" ++ ": No such file")
    | "exec", _, _ =>
      if args.isEmpty then setStatus 0
      else
        modify ({ · with running := some name })
        runProgram scripts (args.headD "") args.tail
        throw .exit
    | "type", none, _ => runBuiltin name false (describeAll false args)
    | "command", none, _ =>
      let rest ← runBuiltin name false (commandRest args)
      runWords scripts call true depth rest
    | _, some body, _ =>
      if !direct && !isSpecial then inFunction args (call body)
      else
        match builtin? name with
        | some act => runBuiltin name isSpecial (act args)
        | none => runProgram scripts name args
    | _, none, some act => runBuiltin name isSpecial (act args)
    | _, none, none => runProgram scripts name args

def runSimple (scripts : Scripts) (insert : Nat → List Char → Act String)
    (call : Command → Act Unit) (n line : Nat) (as : List (String × List Part))
    (ws : List (List Part)) (rs : List Redirect) : Act Unit := do
  modify ({ · with line, inserted := none })
  let words ← expandCommand insert n ws
  let shown := (← get).descriptors.lookup 2
  let name := words.headD ""
  let isSpecial := Script.specialNames.contains name
  let body : Act Unit := do
    if ← redirect insert n rs then
      let bindings := (← get).bindings
      let texts ← assignAll insert n as
      showCommand shown (texts ++ words)
      if words.isEmpty then modify fun s => { s with status := s.inserted.getD 0 }
      else if as.isEmpty || isSpecial then runWords scripts call false n words
      else
        for (x, _) in as do
          modify fun s => s.put x ((s.bindings.lookup x).map ({ · with exported := true }))
        runWords scripts call false n words
        modify fun s => as.foldl (fun s (x, _) => s.put x (bindings.lookup x)) s
    else if isSpecial then throw .failed
  if words = ["exec"] then body else withDescriptors body

def runArms (pattern : List Part → Act Pattern) (run : Command → Act Unit) (subject : Bytes) :
    Command → Act Unit
  | .arm ps body rest => do
    if !(← ps.mapM pattern).any (·.isMatch subject) then runArms pattern run subject rest
    else if body = .nothing then setStatus 0
    else run body
  | _ => setStatus 0

/-- What an action writes as output, without the ends of lines at its end. -/
def outputOf (act : Act Unit) : Act String := do
  let status := (← get).status
  let channel ← newPipe []
  isolated (lead 1 (some channel) *> act)
  let s ← get
  let bs := match channel with
    | .pipe index => (s.pipes.lookup index).getD []
    | _ => []
  set { s with status, inserted := some s.status }
  let bs := bs.filter (· != 0)
  return Bytes.toText (bs.reverse.dropWhile (· == '\n'.toUInt8)).reverse

/-- Runs what is to run when a shell ends, and keeps the status. -/
def sayFarewell (here : List Char → Act Unit) : Act Unit := do
  let s ← get
  if let some script := s.farewell then
    set { s with farewell := none }
    try
      here script.toList
      setStatus s.status
    catch _ => pure ()

def asShell (here : List Char → Act Unit) (act : Act Unit) : Act Unit := do
  try act catch _ => pure ()
  sayFarewell here

/-- Runs the complete commands of a script, at most a number of them. -/
def runLexemes (exec : Command → Act Unit) : Nat → List Lexeme → Act Unit
  | 0, _ => return ()
  | n + 1, ls => do
    match Script.next? ls with
    | .error m =>
      modify ({ · with line := m.line })
      fatal s!"Syntax error: {m.fault.message}"
    | .ok none => return ()
    | .ok (some (c, rest)) =>
      exec c
      runLexemes exec n rest

/-- Runs a command in at most a number of nested steps. -/
def exec : Nat → Command → Act Unit
  | 0, _ => fatal "too many nested steps"
  | n + 1, c => do
    let startingAt (line : Nat) (text : List Char) : Act Unit :=
      let ls := lexemes line text
      runLexemes (exec n) ls.length ls
    let here := startingAt 1
    let scripts : Scripts := { here, whole := fun text => asShell here (here text) }
    let insert (line : Nat) (text : List Char) : Act String :=
      outputOf (asShell here (startingAt line text))
    if (← get).options.onlyReads then return
    match c with
    | .nothing => return ()
    | .simple line as ws rs =>
      runSimple scripts insert (exec n) n line as ws rs
      checkFailure
    | .redirected line c rs =>
      withDescriptors do
        modify ({ · with line })
        if ← redirect insert n rs then exec n c
      checkFailure
    | .pipe c d =>
      let channel ← newPipe []
      let status := (← get).status
      isolated (lead 1 (some channel) *> asShell here (exec n c))
      setStatus status
      isolated (lead 0 (some channel) *> asShell here (exec n d))
      checkFailure
    | .negated c =>
      testing (exec n c)
      setStatus (if (← get).status = 0 then 1 else 0)
    | .sequence c d =>
      exec n c
      exec n d
    | .both c d =>
      testing (exec n c)
      if (← get).status = 0 then exec n d
    | .either c d =>
      testing (exec n c)
      if (← get).status != 0 then exec n d
    | .background c =>
      isolated (lead 0 (some .null) *> asShell here (exec n c))
      setStatus 0
    | .subshell line c rs =>
      isolated do
        modify ({ · with line })
        if ← redirect insert n rs then asShell here (exec n c)
      checkFailure
    | .choice test yes no =>
      testing (exec n test)
      if (← get).status = 0 then exec n yes
      else if no = .nothing then setStatus 0
      else exec n no
    | .loop isUntil test body =>
      nestLoop (repeatBody isUntil (testing (exec n test)) (exec n body) n 0)
    | .each line name words? body =>
      modify ({ · with line })
      let values ← match words? with
        | some ws => expandWords insert n ws
        | none => pure (← get).parameters
      if values.isEmpty then setStatus 0
      nestLoop (repeatFor name (exec n body) values)
    | .select line subject arms =>
      modify ({ · with line })
      let text ← expandText insert n subject
      runArms (expandPattern insert n) (exec n) (.ofString text) arms
    | .arm _ _ _ => return ()
    | .define name body =>
      modify fun s =>
        { s with functions := (name, body) :: s.functions.filter (·.1 != name), status := 0 }

/-- Runs a script as all that a shell does, in at most a number of nested steps. -/
def runScript (n : Nat) (text : List Char) : Act Unit :=
  let here (text : List Char) : Act Unit :=
    let ls := lexemes 1 text
    runLexemes (exec n) ls.length ls
  asShell here (here text)

/-! ### Runs -/

/-- The room for one line at the reader: longer lines come in several reads. -/
def readerRoom : Nat := 4095

/-- The bytes of reads of at most one line and of limited size, each up to its first zero byte.
`used` bytes of the read under way are taken, and `hidden` says whether it had a zero byte. -/
def receivedFrom (used : Nat) (hidden : Bool) : Bytes → Bytes
  | [] => []
  | b :: bs =>
    let full := used = readerRoom
    let hidden := (hidden && !full) || b = 0
    let rest :=
      if b = '\n'.toUInt8 then receivedFrom 0 false bs
      else receivedFrom (if full then 1 else used + 1) hidden bs
    if hidden then rest else b :: rest

def received (bs : Bytes) : String := Bytes.toText (receivedFrom 0 false bs)

/-- The status and the output of a run, and the files after it. -/
structure Result where
  status : Nat
  output : String
  files : Files
  deriving DecidableEq, Inhabited

def maxSteps : Nat := 100000

/-- Runs a program with arguments: the first argument names it. -/
def run (files : Files) (argv : List String) : Result :=
  let script := runScript maxSteps (commandLine argv).toList
  let s := match script.run { files } with
    | .ok _ s | .error _ s => s
  { status := s.status % 256, output := received s.output.data.toList, files := s.files }

end NativeCode.Shell
