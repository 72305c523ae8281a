import NativeCode.Shell.Builtin.Basic

/-!
# Variables

The commands that declare and remove variables, and the one that reads a line into variables.
-/

namespace NativeCode.Shell

/-- The name and the value of an argument that declares a variable. -/
def declaration (arg : String) : Act (String × Option String) := do
  let cs := arg.toList
  let name := cs.takeWhile (· != '=')
  if !isName name then fatal s!"{String.ofList name}: bad variable name"
  let value := cs.drop name.length
  return (String.ofList name, if value.isEmpty then none else some (String.ofList value.tail))

/-- Declares variables with a property, or shows those that have it. -/
def declare (name : String) (has : Variable → Bool) (give : Variable → Variable)
    (args : List String) : Act Unit := do
  let (_, args) ← options "p" args
  setStatus 0
  if args.isEmpty then
    let shown := ((← get).bindings.filter fun (_, v) => has v).mergeSort fun a b => a.1 ≤ b.1
    for (x, v) in shown do
      sayLine (name ++ " " ++ x ++ (v.value.map ("=" ++ singleQuoted ·)).getD "")
  for arg in args do
    let (x, value) ← declaration arg
    if let some text := value then assign x text
    modify fun s => s.put x (some (give ((s.bindings.lookup x).getD {})))

def declareLocal (args : List String) : Act Unit := do
  setStatus 0
  for arg in args do
    let (x, value) ← declaration arg
    match (← get).locals with
    | none => fatal "not in a function"
    | some saved =>
      modify fun s => { s with locals := some ((x, s.bindings.lookup x) :: saved) }
      if let some text := value then assign x text

def unsetNames (args : List String) : Act Unit := do
  let (letters, args) ← options "fv" args
  setStatus 0
  for name in args do
    if letters.contains 'f' then
      modify fun s => { s with functions := s.functions.filter (·.1 != name) }
    else
      if !isName name.toList then fatal s!"{name}: bad variable name"
      if (((← get).bindings.lookup name).map (·.fixed)).getD false then
        fatal s!"{name}: is read only"
      modify (·.put name none)

/-- The characters of a line with a flag for those after a backslash, and what follows the line.
The line is complete if its end was found. -/
def splitLine (raw : Bool) : List Char → Field × List Char × Bool
  | [] => ([], [], false)
  | '\\' :: c :: cs =>
    if raw then
      let (f, rest, complete) := splitLine raw (c :: cs)
      if c = '\n' then ([('\\', false)], cs, true) else (('\\', false) :: f, rest, complete)
    else
      let (f, rest, complete) := splitLine raw cs
      (if c = '\n' then f else (c, true) :: f, rest, complete)
  | c :: cs =>
    if c = '\n' then ([], cs, true)
    else
      let (f, rest, complete) := splitLine raw cs
      ((c, false) :: f, rest, complete)

def parts? (separators : String) (p : Char × Bool) : Bool := !p.2 && separators.contains p.1

def blank? (separators : String) (p : Char × Bool) : Bool :=
  parts? separators p && Format.isBlank p.1

/-- The values of a number of variables from a line: fields, and the rest of the line for the last
of them. -/
def lineValues (separators : String) : Nat → Field → List String
  | 0, _ => []
  | 1, f =>
    let f := f.dropWhile (blank? separators)
    let trimmed := (f.reverse.dropWhile (blank? separators)).reverse
    let inner := trimmed.dropLast
    if (trimmed.getLast?.map (parts? separators)).getD false &&
        !inner.any (parts? separators) then [Field.text inner]
    else [Field.text trimmed]
  | n + 2, f =>
    let f := f.dropWhile (blank? separators)
    let (value, rest) := f.span fun p => !parts? separators p
    let rest := rest.dropWhile (blank? separators)
    let rest := match rest with
      | p :: more => if parts? separators p then more else rest
      | [] => []
    Field.text value :: lineValues separators (n + 1) rest

def readLine (args : List String) : Act Unit := do
  let (letters, names) ← options "r" args
  if names.isEmpty then fatal "arg count"
  let (line, rest, complete) := splitLine (letters.contains 'r') (← pending 0).toText.toList
  leaveBytes 0 (.ofChars rest)
  let values := lineValues (← get).separators names.length line
  for (name, value) in names.zip values do
    if !isName name.toList then fatal s!"{name}: bad variable name"
    assign name value
  setStatus (if complete then 0 else 1)

end NativeCode.Shell
