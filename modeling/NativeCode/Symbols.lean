import NativeCode.Failure

/-!
# Symbols

Names of the source become names of the assembly. Names the module defines get a prefix, names of
external functions keep their spelling. The table only grows; a name that was only declared can
still be defined as a function.
-/

namespace NativeCode

inductive Section where
  | text
  | data
  | bss
  deriving DecidableEq, Inhabited

inductive SymbolKind where
  | function
  | variable
  | constant
  deriving DecidableEq, Inhabited

structure Address where
  sec : Section
  offset : Nat
  deriving DecidableEq, Inhabited

structure Symbol where
  /-- The name in the source. -/
  source : String
  /-- The name in the assembly. -/
  asm : String
  kind : SymbolKind
  /-- Whether this module defines it. -/
  defined : Bool
  address : Option Address := none
  deriving DecidableEq, Inhabited

/-- The table, in the order in which names were entered. -/
structure Symbols where
  /-- What stands in front of the names that the module defines. -/
  stem : String := ""
  entries : List Symbol := []
  deriving DecidableEq, Inhabited

namespace Symbols

def find? (s : Symbols) (name : String) : Option Symbol := s.entries.find? (·.source == name)

def size (s : Symbols) : Nat := s.entries.length

def push (s : Symbols) (e : Symbol) : Symbols := { s with entries := s.entries ++ [e] }

def update (s : Symbols) (name : String) (f : Symbol → Symbol) : Symbols :=
  { s with entries := s.entries.map fun e => if e.source = name then f e else e }

/-- Enters a name that the module defines. A name that is already there can only be an external
function that turns out to be defined here. -/
def define (s : Symbols) (name : String) (kind : SymbolKind) (address : Option Address := none) :
    Except Failure (Symbol × Symbols) :=
  match s.find? name with
  | some e =>
    if !e.defined && e.kind = .function && kind = .function then
      let e' := { e with defined := true, asm := s.stem ++ name }
      .ok (e', s.update name fun _ => e')
    else fail (.symbolTwice name) name
  | none =>
    let e : Symbol := { source := name, asm := s.stem ++ name, kind, defined := true, address }
    .ok (e, s.push e)

/-- Enters an external function, unless the name is already there. -/
def declare (s : Symbols) (name : String) : Symbol × Symbols :=
  match s.find? name with
  | some e => (e, s)
  | none =>
    let e : Symbol := { source := name, asm := name, kind := .function, defined := false }
    (e, s.push e)

/-- The function that a call names; an unknown name is an external function. -/
def callee (s : Symbols) (name : String) : Except Failure (Symbol × Symbols) :=
  match s.find? name with
  | some e => if e.kind = .function then .ok (e, s) else fail (.notCallable name) name
  | none => .ok (s.declare name)

def data (s : Symbols) (name : String) : Except Failure Symbol :=
  match s.find? name with
  | none => fail (.globalUnknown name) name
  | some e => if e.kind = .function then fail (.notData name) name else .ok e

end Symbols

end NativeCode
