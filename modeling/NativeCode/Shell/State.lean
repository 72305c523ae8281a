import NativeCode.Files
import NativeCode.Shell.Command
import NativeCode.Text.Bytes

/-!
# The state of a shell

A shell works on a tree of files. Its descriptors lead to the reader of its output, to files or to
pipes. Whatever a script does is an action on the state, which can end by a jump: out of a loop, out
of a function or out of the shell.
-/

namespace NativeCode.Shell

inductive Channel where
  /-- To the reader of the output. -/
  | reader
  | file (path : Path)
  /-- To a pipe, which keeps bytes for whoever reads them. -/
  | pipe (index : Nat)
  /-- To no one who looks at it, and who has nothing to say. -/
  | null
  deriving DecidableEq, Inhabited

/-- A variable, which can have properties without a value. -/
structure Variable where
  value : Option String := none
  exported : Bool := false
  fixed : Bool := false
  deriving DecidableEq, Inhabited

/-- The options of a shell, by the letters of those that are set. -/
structure Options where
  letters : List Char := []
  deriving DecidableEq, Inhabited

namespace Options

/-- The options with their names and letters, in the order in which they are shown. -/
def table : List (String × Char) :=
  [("errexit", 'e'), ("noglob", 'f'), ("ignoreeof", 'I'), ("interactive", 'i'), ("monitor", 'm'),
    ("noexec", 'n'), ("stdin", 's'), ("xtrace", 'x'), ("verbose", 'v'), ("vi", 'V'), ("emacs", 'E'),
    ("noclobber", 'C'), ("allexport", 'a'), ("notify", 'b'), ("nounset", 'u'), ("privileged", 'p')]

def set? (o : Options) (isOn : Bool) (c : Char) : Option Options :=
  if !table.any (·.2 == c) then none
  else
    let others := o.letters.filter (· != c)
    some { letters := if isOn then c :: others else others }

def exitsOnFailure (o : Options) : Bool := o.letters.contains 'e'

def needsValues (o : Options) : Bool := o.letters.contains 'u'

def traces (o : Options) : Bool := o.letters.contains 'x'

def keepsPatterns (o : Options) : Bool := o.letters.contains 'f'

def onlyReads (o : Options) : Bool := o.letters.contains 'n'

def keepsFiles (o : Options) : Bool := o.letters.contains 'C'

def exportsAll (o : Options) : Bool := o.letters.contains 'a'

/-- The letters of the options that are set, the last of the table first. -/
def text (o : Options) : String :=
  String.ofList ((table.map (·.2)).reverse.filter o.letters.contains)

end Options

structure State where
  files : Files := {}
  /-- The output so far. -/
  output : ByteArray := .empty
  pipes : List (Nat × Bytes) := []
  descriptors : List (Nat × Channel) := [(0, .null), (1, .reader), (2, .null)]
  name : String := "sh"
  parameters : List String := []
  bindings : List (String × Variable) := []
  functions : List (String × Command) := []
  /-- The variables that a function made its own, as they were before; none outside functions. -/
  locals : Option (List (String × Option Variable)) := none
  options : Options := {}
  /-- The status of the last command. -/
  status : Nat := 0
  /-- The status of the last script whose output was inserted by the command under way. -/
  inserted : Option Nat := none
  line : Nat := 1
  /-- The command that complaints name. -/
  running : Option String := none
  /-- The number of loops around. -/
  loops : Nat := 0
  /-- The number of functions around. -/
  calls : Nat := 0
  /-- Whether a failure is looked at. -/
  tested : Bool := false
  /-- The script to run when the shell ends. -/
  farewell : Option String := none
  deriving Inhabited

inductive Jump where
  | exit
  /-- Out of the shell after a complaint, or out of a command that goes on after complaints. -/
  | failed
  /-- Out of a function or a file. -/
  | leave
  | breakLoop (count : Nat)
  | continueLoop (count : Nat)
  deriving DecidableEq, Inhabited

abbrev Act := EStateM Jump State

def setStatus (status : Nat) : Act Unit := modify fun s => { s with status }

def State.send (s : State) (bs : Bytes) : Channel → State
  | .reader => { s with output := s.output ++ bs.toByteArray }
  | .file path =>
    { s with files := s.files.put path ((s.files.contents? path).getD "" ++ bs.toText) }
  | .pipe index =>
    let held := (s.pipes.lookup index).getD []
    { s with pipes := (index, held ++ bs) :: s.pipes.filter (·.1 != index) }
  | .null => s

/-- Writes on a descriptor, and says whether it leads anywhere. -/
def write (fd : Nat) (bs : Bytes) : Act Bool := do
  match (← get).descriptors.lookup fd with
  | some channel => modifyGet fun s => (true, s.send bs channel)
  | none => return bs.isEmpty

def complain (text : String) (status : Nat) : Act Unit := do
  let s ← get
  let who := (s.running.map (s!"{·}: ")).getD ""
  discard <| write 2 (.ofString s!"{s.name}: {s.line}: {who}{text}\n")
  setStatus status

def fatal {α : Type} (text : String) : Act α := do
  complain text 2
  throw .failed

def pending (fd : Nat) : Act Bytes := do
  let s ← get
  match s.descriptors.lookup fd with
  | some (.pipe index) => return (s.pipes.lookup index).getD []
  | _ => return []

def leaveBytes (fd : Nat) (bs : Bytes) : Act Unit := modify fun s =>
  match s.descriptors.lookup fd with
  | some (.pipe index) => { s with pipes := (index, bs) :: s.pipes.filter (·.1 != index) }
  | _ => s

def newPipe (bs : Bytes) : Act Channel := modifyGet fun s =>
  (.pipe s.pipes.length, { s with pipes := (s.pipes.length, bs) :: s.pipes })

def lead (fd : Nat) (channel : Option Channel) : Act Unit := modify fun s =>
  let others := s.descriptors.filter (·.1 != fd)
  { s with descriptors := (channel.map (fd, ·)).toList ++ others }

def State.value? (s : State) (name : String) : Option String := do (← s.bindings.lookup name).value

def State.put (s : State) (name : String) (v : Option Variable) : State :=
  let others := s.bindings.filter (·.1 != name)
  { s with bindings := (v.map (name, ·)).toList ++ others }

def assign (name value : String) : Act Unit := do
  let v := ((← get).bindings.lookup name).getD {}
  if v.fixed then fatal s!"{name}: is read only"
  modify fun s =>
    s.put name (some { v with value, exported := v.exported || s.options.exportsAll })

/-- An action that leaves the shell as it is, whatever it does to files and channels. A jump ends
it, and of its status eight bits are left. -/
def isolated (act : Act Unit) : Act Unit := do
  let s ← get
  set { s with farewell := none }
  try act catch _ => pure ()
  let t ← get
  set { s with files := t.files, output := t.output, pipes := t.pipes, status := t.status % 256 }

/-- An action after which the descriptors are as before, however it ends. -/
def withDescriptors {α : Type} (act : Act α) : Act α := do
  let s ← get
  try
    let a ← act
    modify ({ · with descriptors := s.descriptors })
    return a
  catch j =>
    modify ({ · with descriptors := s.descriptors })
    throw j

end NativeCode.Shell
