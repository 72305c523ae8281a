import NativeCode.Shell.Format.Argument
import NativeCode.Shell.Format.Escape
import NativeCode.Shell.Format.Layout

/-!
# Formatted output

A format is text with escapes and directives. It is used again until all arguments are taken; a
directive without an argument takes the empty text, or zero.
-/

namespace NativeCode.Shell.Format

/-- A width or a precision: a number, or the next argument. -/
inductive Measure where
  | given (n : Nat)
  | argument
  deriving DecidableEq, Inhabited

structure Directive where
  letter : Char := 's'
  flags : Flags := {}
  width : Measure := .given 0
  precision : Option Measure := none
  deriving DecidableEq, Inhabited

inductive Fault where
  | missingCharacter
  | invalidDirective (text : String)
  /-- A field has more bytes than can be counted. -/
  | tooLong
  deriving DecidableEq, Inhabited

def Fault.message : Fault → String
  | missingCharacter => "missing format character"
  | invalidDirective text => s!"{text}: invalid directive"
  | tooLong => "xvsnprintf failed"

inductive Piece where
  | bytes (bs : Bytes)
  | directive (d : Directive)
  /-- A fault after the measures of a directive. -/
  | fault (d : Directive) (f : Fault)
  deriving DecidableEq, Inhabited

def letters : List Char :=
  ['s', 'b', 'c', 'd', 'i', 'o', 'u', 'x', 'X', 'a', 'A', 'e', 'E', 'f', 'F', 'g', 'G']

inductive Stage where
  | flags
  | width
  | point
  | precisionStart
  | precision
  | letter
  deriving DecidableEq, Inhabited

/-- A directive of which a part has been read; its text has the last character first. -/
structure Opened where
  directive : Directive := {}
  stage : Stage := .flags
  text : List Char := ['%']
  deriving DecidableEq, Inhabited

def Measure.push (m : Measure) (d : Nat) : Measure :=
  match m with
  | given n => given (n * 10 + d)
  | argument => argument

/-- The directive after a character that does not end it. -/
def Opened.next? (o : Opened) (c : Char) : Option Opened :=
  let d := o.directive
  let digit := Text.digitBelow? 10 c
  let step (stage : Stage) (d : Directive) : Option Opened :=
    some { directive := d, stage, text := c :: o.text }
  let widen (n : Nat) : Option Opened := step .width { d with width := d.width.push n }
  let measure (m : Option Measure) (stage : Stage) : Option Opened :=
    step stage { d with precision := m }
  match o.stage, digit with
  | .flags, _ =>
    match d.flags.add? c, digit with
    | some flags, _ => step .flags { d with flags }
    | none, some n => widen n
    | none, none =>
      if c = '*' then step .point { d with width := .argument }
      else if c = '.' then measure (some (.given 0)) .precisionStart
      else none
  | .width, some n => widen n
  | .width, none | .point, none =>
    if c = '.' then measure (some (.given 0)) .precisionStart else none
  | .precisionStart, none => if c = '*' then measure (some .argument) .letter else none
  | .precisionStart, some n | .precision, some n =>
    measure (d.precision.map (·.push n)) .precision
  | _, _ => none

/-- The directive that a character ends, or its fault. -/
def Opened.close (o : Opened) (c : Char) : Piece :=
  let d := { o.directive with letter := c }
  if letters.contains c then .directive d
  else .fault d (.invalidDirective (String.ofList (c :: o.text).reverse))

/-- The parts of a format up to its end or its first fault. A directive may be open. -/
def pieces : Option Opened → List Element → List Piece
  | none, [] => []
  | some o, [] => [.fault o.directive .missingCharacter]
  | none, .plain c :: es =>
    if c = '%' then pieces (some {}) es
    else .bytes (String.utf8EncodeChar c) :: pieces none es
  | none, .escaped b :: es => .bytes [b] :: pieces none es
  | some o, .plain c :: es =>
    if c = '%' && o = {} then .bytes ['%'.toUInt8] :: pieces none es
    else
      match o.next? c with
      | some o => pieces (some o) es
      | none =>
        match o.close c with
        | .fault d f => [.fault d f]
        | p => p :: pieces none es
  | some o, .escaped _ :: _ => [o.close '\\']
  | _, .stop :: _ => []

/-- Why printing stops before the format ends. -/
inductive Ending where
  /-- An argument asks for it. -/
  | asked
  | fault (f : Fault)
  deriving DecidableEq, Inhabited

/-- What was printed: text, arguments not yet taken, arguments that are no proper numbers, and why
printing stopped. -/
structure Printed where
  text : Bytes := []
  rest : List String := []
  misfits : List (String × Misfit) := []
  ending : Option Ending := none
  deriving DecidableEq, Inhabited

def Printed.after (p : Printed) (bs : Bytes) : Printed := { p with text := bs ++ p.text }

/-- What was printed after an argument that may be no proper number. -/
def Printed.noting (p : Printed) (arg : String) (m : Option Misfit) : Printed :=
  { p with misfits := (m.map (arg, ·)).toList ++ p.misfits }

def maxMeasure : Nat := 2147483647

/-- Takes the argument of a measure. Measures have 32 bits. -/
def Measure.take (m : Measure) (args : List String) :
    Int × List String × List (String × Misfit) :=
  match m, args with
  | given n, args => (n, args, [])
  | argument, [] => (0, [], [])
  | argument, arg :: args =>
    let (n, misfit) := signedWord arg.toList
    (n.bmod 4294967296, args, (misfit.map (arg, ·)).toList)

/-- Takes the arguments of the measures of a directive. A negative width fills up on the right, and
a negative precision counts as none. -/
def Directive.layout (d : Directive) (args : List String) :
    Layout × List String × List (String × Misfit) :=
  let (width, args, noted) := d.width.take args
  let flags := if width < 0 then { d.flags with left := true } else d.flags
  match d.precision with
  | none => ({ flags, width := width.natAbs }, args, noted)
  | some m =>
    let (p, args, notedAlso) := m.take args
    let precision := if p < 0 then none else some p.toNat
    ({ flags, width := width.natAbs, precision }, args, noted ++ notedAlso)

/-- The field of an argument under a directive, with what is wrong with it and why printing stops
after it. -/
def Directive.field (d : Directive) (l : Layout) (arg : String) :
    Bytes × Option Misfit × Option Ending :=
  let cs := arg.toList
  if maxMeasure < max l.width (l.precision.getD 0) then ([], none, some (.fault .tooLong))
  else
    match d.letter with
    | 's' => (l.text (Bytes.ofChars cs), none, none)
    | 'b' =>
      let (bs, stops) := unescape cs
      (l.text bs, none, if stops then some .asked else none)
    | 'c' => (l.byte ((Bytes.ofChars cs).headD 0), none, none)
    | 'd' | 'i' =>
      let (n, misfit) := signedWord cs
      (l.signed n, misfit, none)
    | 'o' | 'u' | 'x' | 'X' =>
      let (n, misfit) := unsignedWord cs
      (l.unsigned d.letter n, misfit, none)
    | _ =>
      let (bits, misfit) := double cs
      (l.real d.letter bits, misfit, none)

/-- What the parts of a format print for the arguments at hand. -/
def fill : List Piece → List String → Printed
  | [], args => { rest := args }
  | .bytes bs :: ps, args => (fill ps args).after bs
  | .fault d f :: _, args =>
    let (_, rest, misfits) := d.layout args
    { rest, misfits, ending := some (.fault f) }
  | .directive d :: ps, args =>
    let (l, args, noted) := d.layout args
    let arg := args.headD ""
    let (bs, misfit, ending) := d.field l arg
    let p :=
      match ending with
      | none => fill ps args.tail
      | some e => { rest := args.tail, ending := some e }
    let p := (p.after bs).noting arg misfit
    { p with misfits := noted ++ p.misfits }

/-- Uses the parts of a format until the arguments are taken, a bounded number of times. -/
def fillAll (ps : List Piece) : Nat → List String → Printed
  | 0, args => fill ps args
  | n + 1, args =>
    let p := fill ps args
    if p.rest.isEmpty || p.rest.length = args.length || p.ending.isSome then p
    else
      let q := fillAll ps n p.rest
      { q.after p.text with misfits := p.misfits ++ q.misfits }

def print (format : String) (args : List String) : Printed :=
  fillAll (pieces none (elements .format format.toList)) args.length args

end NativeCode.Shell.Format
