import NativeCode.Ir.Reader.Body

/-!
# Reading modules

A source text is read line by line. Blank lines and lines that start with `#` or `//` are skipped.
Outside of functions a line names the module, declares a global, a constant or an external function,
or opens a function.
-/

namespace NativeCode.Ir.Reader

open NativeCode.Text
open NativeCode.Source (Loc)

/-- The part of a module that has been read, and the function whose body is open. -/
structure Progress where
  name : String := "module"
  globals : Array Global := #[]
  externs : Array String := #[]
  functions : Array Function := #[]
  body : Option OpenFunction := none
  deriving Inhabited

/-- An identifier that fills the rest of the line; all its faults are at its column. -/
def readLastName (fault : Fault) : Scan String := do
  let column ← nextColumn
  let w ← token
  let ended ← atEnd
  if isIdentifier w && ended then return String.ofList w
  failAt column fault

/-- The initial value of a global of type `ty`, after the equals sign. -/
def readInitializer (ty : Ty) : Scan Word := do
  let column ← nextColumn
  match integer? (← token) with
  | none => failAt column .initializerNotInteger
  | some v =>
    if ty.isInteger && !ty.holds v then failAt column (.initializerOutOfRange v ty)
    return v

/-- The optional initial value of a global; a constant has to have one. -/
def readInit (isConstant : Bool) (name : String) (ty : Ty) : Scan (Option Word) := do
  if ← eat '=' then return some (← readInitializer ty)
  if isConstant then failHere (.initializerMissing name)
  return none

def readGlobal (isConstant : Bool) : Scan Global := do
  let name ← expectName .malformedGlobalName
  expect ':' .expectedColonAfterGlobal
  let ty ← expectTy
  let init ← readInit isConstant name ty
  expectEnd
  return { name, ty, init, isConstant }

def readParam : Scan Param := do
  let name ← expectName .malformedParameterName
  expect ':' .expectedColonAfterParameter
  return { name, ty := ← expectTy }

/-- The return type after `->`, `void` if there is none. -/
def readReturnTy : Scan Ty := do
  let start ← get
  if (← token) = "->".toList then expectTy
  else
    set start
    return .void

def readHeader : Scan OpenFunction := do
  let name ← expectName .malformedFunctionName
  expect '(' .expectedParameterList
  let params ← separated readParam .expectedParameterEnd
  let ret ← readReturnTy
  expect '\x7b' .expectedBody
  expectEnd .textAfterBrace
  return { name, params, ret }

namespace Progress

def readItem (p : Progress) : Scan Progress := do
  let column ← nextColumn
  let w ← token
  match String.ofList w with
  | "module" => return { p with name := ← readLastName .malformedModuleName }
  | "global" => return { p with globals := p.globals.push (← readGlobal false) }
  | "const" => return { p with globals := p.globals.push (← readGlobal true) }
  | "extern" => return { p with externs := p.externs.push (← readLastName .malformedExternName) }
  | "func" => return { p with body := some (← readHeader) }
  | keyword => failAt column (.unexpectedKeyword keyword)

def readContent (p : Progress) (place : Nat → Loc) (c : Cursor) : Except Flaw Progress :=
  match p.body with
  | none => (·.1) <$> p.readItem.run c
  | some f => do
    match ← f.readLine place c with
    | .inl f => return { p with body := some f }
    | .inr f => return { p with functions := p.functions.push f, body := none }

/-- A line that is skipped: it is blank or starts with `#` or `//`. -/
def isSkipped : List Char → Bool
  | [] => true
  | '#' :: _ => true
  | '/' :: '/' :: _ => true
  | _ => false

def readLine (p : Progress) (file number : Nat) (line : List Char) : Except Error Progress :=
  let c := Cursor.skipBlanks ⟨trimEnd line, 1⟩
  let place (column : Nat) : Loc := { file, line := number, column }
  if isSkipped c.rest then .ok p
  else (p.readContent place c).mapError fun flaw => ⟨flaw.fault, place flaw.column⟩

/-- The module that has been read, unless a function is still open after line `number`. -/
def close (p : Progress) (file number : Nat) : Except Error Module :=
  match p.body with
  | some f => .error ⟨.unterminatedFunction f.name, { file, line := number, column := 1 }⟩
  | none =>
    .ok
      { name := p.name
        globals := p.globals.toList
        externs := p.externs.toList
        functions := p.functions.toList }

def readLines (file : Nat) : Progress → Nat → List (List Char) → Except Error Module
  | p, number, [] => p.close file number
  | p, number, line :: rest => do
    let p ← p.readLine file (number + 1) line
    readLines file p (number + 1) rest

end Progress

/-- Reads a module from the text of file number `file`. -/
def readModule (file : Nat) (text : String) : Except Error Module :=
  Progress.readLines file {} 0 (lines text.toList)

end NativeCode.Ir.Reader
