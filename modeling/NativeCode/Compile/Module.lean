import NativeCode.Compile.Function
import NativeCode.Listing
import NativeCode.WellFormed

/-!
# Compiling modules

A module is checked, its globals are laid out in the data sections, all names are entered, and its
functions are compiled in order. Text, line map and trace come out only if all of this succeeds.
-/

namespace NativeCode.Compile

open NativeCode.Selection

structure Sections where
  data : Nat := 0
  bss : Nat := 0
  deriving DecidableEq, Inhabited

def alignSlot (n : Nat) : Nat := (n + 7) / 8 * 8

def dataDirective (bytes : Nat) (value : Word) : String :=
  let w := Width.ofBytes bytes
  let keyword :=
    match w with
    | .byte => ".byte"
    | .word => ".short"
    | .long => ".long"
    | .quad => ".quad"
  s!"{keyword} {(w.signExtend value).toInt}"

/-- A global has a size, and an aggregate has no initial value other than zero. -/
def checkGlobal (g : Ir.Global) : Except Failure Unit := do
  if g.ty.size = 0 then fail (.globalWithoutSize g.name) g.name
  if g.ty.isAggregate && (g.init.any (· ≠ 0)) then fail (.aggregateInitializer g.name) g.name

def globalDirective (g : Ir.Global) : String :=
  match g.init with
  | some v => if g.ty.isAggregate then s!".zero {g.ty.size}" else dataDirective g.ty.size v
  | none => s!".zero {g.ty.size}"

/-- The section of a global, its offset there, and the sections with the global in them. Globals
with an initial value are data, all others take no room in the file. -/
def Sections.place (u : Sections) (g : Ir.Global) : Address × Sections :=
  if g.init.isSome then
    (⟨.data, alignSlot u.data⟩, { u with data := alignSlot u.data + g.ty.size })
  else (⟨.bss, alignSlot u.bss⟩, { u with bss := alignSlot u.bss + g.ty.size })

def globalItems (g : Ir.Global) (asm : String) : List Item :=
  [.directive (".globl " ++ asm), .directive ".p2align 3", .label asm,
    .directive (globalDirective g)]

def layoutGlobals :
    List Ir.Global → Sections → Symbols → Listing → Except Failure (Symbols × Listing)
  | [], _, symbols, l => .ok (symbols, l)
  | g :: gs, u, symbols, l => do
    checkGlobal g
    let (address, u) := u.place g
    let kind := if g.isConstant then SymbolKind.constant else .variable
    let (sym, symbols) ← symbols.define g.name kind (some address)
    layoutGlobals gs u symbols ((globalItems g sym.asm).foldl (·.append address.sec ·) l)

/-- Enters the functions of a module into the symbols. -/
def defineFunctions : List Ir.Function → Symbols → Except Failure Symbols
  | [], symbols => .ok symbols
  | f :: fs, symbols => do
    let (_, symbols) ← symbols.define f.name .function
    defineFunctions fs symbols

def declareExterns (names : List String) (symbols : Symbols) : Symbols :=
  names.foldl (fun s name => (s.declare name).2) symbols

def compileFunctions (o : Options) : List Ir.Function → Build (List Compiled)
  | [] => return []
  | f :: fs => do
    let c ← compileFunction o f
    return c :: (← compileFunctions o fs)

structure Output where
  asm : String
  map : Option String
  trace : String
  deriving DecidableEq, Inhabited

def header (o : Options) (m : Ir.Module) : List String :=
  s!"\t.file \"{m.name}\"" ::
    if o.comments then [s!"# calling convention: {o.convention.name}"] else []

/-- The listing of a module, and the trace of its functions. -/
def listModule (o : Options) (m : Ir.Module) : Except Failure (Listing × String) := do
  WellFormed.checkModule m
  let start : Listing := { header := (header o m).toArray }
  let (symbols, listing) ← layoutGlobals m.globals {} { stem := o.stem } start
  let symbols := declareExterns m.externs (← defineFunctions m.functions symbols)
  let (compiled, _) ← (compileFunctions o m.functions).run { symbols }
  let items := compiled.flatMap fun c => Listing.functionItems c.code
  return (items.foldl (·.append .text ·) listing, String.join (compiled.map (·.trace)))

def compileModule (o : Options) (m : Ir.Module) : Except Failure Output := do
  let (listing, trace) ← listModule o m
  let rendered := listing.print o.comments
  return { asm := rendered.text
           map := if o.lineMap then some (mapText m.name rendered.lines) else none
           trace }

end NativeCode.Compile
