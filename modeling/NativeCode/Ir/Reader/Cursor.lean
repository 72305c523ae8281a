import NativeCode.Ir.Reader.Fault

/-!
# Reading along a line

A cursor is the rest of a line with the column of its first byte. A scan reads from the cursor and
either moves it on or stops at a fault with the column of the fault.
-/

namespace NativeCode.Ir.Reader

open NativeCode.Text

/-- The unread rest of a line; `column` is the byte column of its first character, from one. -/
structure Cursor where
  rest : List Char
  column : Nat
  deriving DecidableEq, Inhabited

structure Flaw where
  fault : Fault
  column : Nat
  deriving DecidableEq, Inhabited

abbrev Scan := StateT Cursor (Except Flaw)

def isPunctuation (c : Char) : Bool :=
  c == ',' || c == '(' || c == ')' || c == ':' || c == '\x7b' || c == '\x7d' || c == '='

def isWordChar (c : Char) : Bool := !(isBlank c || isPunctuation c)

namespace Cursor

/-- Moves past the characters `cs`, which leave `rest`. -/
def advance (c : Cursor) (cs rest : List Char) : Cursor := ⟨rest, c.column + byteLength cs⟩

def skipBlanks (c : Cursor) : Cursor :=
  c.advance (c.rest.takeWhile isBlank) (c.rest.dropWhile isBlank)

/-- The word at the cursor, empty if there is none, and the cursor after it. -/
def word (c : Cursor) : List Char × Cursor :=
  (c.rest.takeWhile isWordChar,
    c.advance (c.rest.takeWhile isWordChar) (c.rest.dropWhile isWordChar))

end Cursor

def failAt {α : Type} (column : Nat) (fault : Fault) : Scan α := throw ⟨fault, column⟩

/-- Skips blanks and gives the column of what follows. -/
def nextColumn : Scan Nat := do
  modify Cursor.skipBlanks
  return (← get).column

def failHere {α : Type} (fault : Fault) : Scan α := do failAt (← nextColumn) fault

/-- The next word; it is empty in front of punctuation and at the end of the line. -/
def token : Scan (List Char) := do
  modify Cursor.skipBlanks
  let (w, c) := (← get).word
  set c
  return w

/-- Reads `ch` if it is the next character after blanks, and says whether it was. -/
def eat (ch : Char) : Scan Bool := do
  modify Cursor.skipBlanks
  let c ← get
  match c.rest with
  | x :: rest => if x = ch then do set (c.advance [x] rest); return true else return false
  | [] => return false

def expect (ch : Char) (fault : Fault) : Scan Unit := do
  unless ← eat ch do failHere fault

def atEnd : Scan Bool := do
  modify Cursor.skipBlanks
  return (← get).rest.isEmpty

def expectEnd (fault : Fault := .trailingText) : Scan Unit := do
  unless ← atEnd do failHere fault

/-- Items separated by commas up to a closing parenthesis. There are at most `fuel` of them. -/
def separatedUpTo {α : Type} (item : Scan α) (fault : Fault) : Nat → Scan (List α)
  | 0 => failHere fault
  | fuel + 1 => do
    let x ← item
    if ← eat ')' then return [x]
    expect ',' fault
    return x :: (← separatedUpTo item fault fuel)

/-- Items in parentheses, separated by commas; the opening parenthesis has been read. Every item
takes at least one character, so the length of the line bounds their number. -/
def separated {α : Type} (item : Scan α) (fault : Fault) : Scan (List α) := do
  if ← eat ')' then return []
  separatedUpTo item fault ((← get).rest.length + 1)

end NativeCode.Ir.Reader
