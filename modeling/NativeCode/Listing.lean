import NativeCode.Symbols
import NativeCode.Machine.Printer

/-!
# Assembly listings

A listing collects header lines and, for each of three sections, directives, labels and
instructions. It is printed once; after that it is sealed and takes no more lines. Printing also
gives the map from the lines of instructions to the source places they were made for.
-/

namespace NativeCode

open NativeCode.Machine
open NativeCode.Source (Loc)

inductive Item where
  | directive (text : String)
  | label (name : String)
  | instr (i : Instr)
  deriving DecidableEq, Inhabited

/-- The source place of an instruction line, and the label above it. Lines are counted from one. -/
structure LineMapping where
  loc : Loc
  line : Nat
  label : String
  deriving DecidableEq, Inhabited

structure Rendered where
  text : String := ""
  lines : List LineMapping := []
  deriving DecidableEq, Inhabited

structure Listing where
  header : Array String := #[]
  text : Array Item := #[]
  data : Array Item := #[]
  bss : Array Item := #[]
  sealed : Bool := false
  deriving DecidableEq, Inhabited

/-- A line was added to, or a text asked of, a sealed listing. -/
structure Sealed where
  deriving DecidableEq, Inhabited

def Sealed.message (_ : Sealed) : String :=
  "assembly file is sealed; no further appends are allowed"

/-- The printer's place in the text: lines written, label above, and what has been printed. -/
structure Printer where
  text : String := ""
  line : Nat := 0
  label : String := ""
  lines : Array LineMapping := #[]
  deriving Inhabited

namespace Printer

def writeLine (p : Printer) (s : String) : Printer :=
  let ⟨text, line, label, lines⟩ := p
  { text := text ++ s ++ "\n", line := line + 1, label, lines }

def item (comments : Bool) (p : Printer) : Item → Printer
  | .directive text => p.writeLine ("\t" ++ text)
  | .label name => { p.writeLine (name ++ ":") with label := name }
  | .instr i =>
    let p := p.writeLine (i.line comments)
    if i.origin.hasLine then
      let ⟨text, line, label, lines⟩ := p
      { text, line, label, lines := lines.push ⟨i.origin, line, label⟩ }
    else p

/-- Prints a section under its directive, unless it is empty. -/
def sec (comments : Bool) (p : Printer) (directive : String) (items : Array Item) : Printer :=
  if items.isEmpty then p
  else items.foldl (item comments) { p.writeLine directive with label := "" }

end Printer

namespace Listing

def items (l : Listing) : Section → Array Item
  | .text => l.text
  | .data => l.data
  | .bss => l.bss

/-- Adds a line to a section without asking whether the listing is sealed. -/
def append (l : Listing) (s : Section) (i : Item) : Listing :=
  match s with
  | .text => { l with text := l.text.push i }
  | .data => { l with data := l.data.push i }
  | .bss => { l with bss := l.bss.push i }

def add (l : Listing) (s : Section) (i : Item) : Except Sealed Listing :=
  if l.sealed then .error {} else .ok (l.append s i)

def addHeader (l : Listing) (text : String) : Except Sealed Listing :=
  if l.sealed then .error {} else .ok { l with header := l.header.push text }

def functionItems (f : Function) : List Item :=
  [.directive (".globl " ++ f.name), .directive ".p2align 4", .label f.name] ++
    f.prologue.map .instr ++
    f.blocks.flatMap (fun b => .label b.label :: b.code.map .instr) ++
    if f.epilogueLabel.isEmpty then [] else .label f.epilogueLabel :: f.epilogue.map .instr

def addFunction (l : Listing) (f : Function) : Except Sealed Listing :=
  if l.sealed then .error {} else .ok ((functionItems f).foldl (·.append .text ·) l)

def print (l : Listing) (comments : Bool) : Rendered :=
  let p : Printer := l.header.foldl Printer.writeLine {}
  let p := p.sec comments "\t.text" l.text
  let p := p.sec comments "\t.data" l.data
  let p := p.sec comments "\t.bss" l.bss
  { text := p.text, lines := p.lines.toList }

def render (l : Listing) (comments : Bool) : Except Sealed (Rendered × Listing) :=
  if l.sealed then .error {} else .ok (l.print comments, { l with sealed := true })

end Listing

def LineMapping.text (m : LineMapping) : String :=
  s!"{m.loc.line}:{m.loc.column} -> {m.line}:{m.label}\n"

def mapText (module : String) (lines : List LineMapping) : String :=
  lines.foldl (fun s m => s ++ m.text) ("kestrel-srcmap 1\nmodule " ++ module ++ "\n")

end NativeCode
