import NativeCode.Shell.Format.Argument

/-!
# Conditions

A condition is given by arguments: texts, comparisons of two texts or two integers, properties of a
text or of the file it names, and combinations of these. An argument that looks like an operator can
be a text, depending on what stands around it.
-/

namespace NativeCode.Shell.Condition

inductive Fault where
  | unexpectedOperator (text : String)
  | argumentExpected (op : String)
  | closingParen
  | illegalNumber (text : String)
  deriving DecidableEq, Inhabited

def Fault.message : Fault → String
  | unexpectedOperator "" => "unexpected operator"
  | unexpectedOperator text => s!"{text}: unexpected operator"
  | argumentExpected op => s!"{op}: argument expected"
  | closingParen => "closing paren expected"
  | illegalNumber text => s!"Illegal number: {text}"

inductive Kind where
  | missing
  | text
  | unary
  | binary
  | not
  | and
  | or
  | opening
  | closing
  deriving DecidableEq, Inhabited

def operator? (text : String) : Option Kind :=
  let unaries := ["-r", "-w", "-x", "-e", "-f", "-d", "-c", "-b", "-p", "-u", "-g", "-k", "-s",
    "-t", "-z", "-n", "-h", "-L", "-O", "-G", "-S"]
  let binaries := ["=", "!=", "<", ">", "-eq", "-ne", "-ge", "-gt", "-le", "-lt", "-nt", "-ot",
    "-ef"]
  if unaries.contains text then some .unary
  else if binaries.contains text then some .binary
  else ([("!", .not), ("-a", .and), ("-o", .or), ("(", .opening), (")", .closing)] :
    List (String × Kind)).lookup text

/-- Whether an operator on one argument is a text itself: nothing follows, or it is compared. -/
def isCompared : List String → Bool
  | [] => true
  | [_] => false
  | next :: _ => operator? next = some .binary

def kind : List String → Kind
  | [] => .missing
  | arg :: rest =>
    match operator? arg with
    | some .unary => if isCompared rest then .text else .unary
    | some .opening => if rest.isEmpty then .text else .opening
    | some k => k
    | none => .text

def integer (text : String) : Except Fault Int :=
  let cs := text.toList
  let (negative, digits) := Format.splitSign (cs.dropWhile Format.isBlank)
  let (ds, rest) := Real.spanDigits 10 digits
  match Text.digits? 10 ds with
  | some n =>
    let value : Int := if negative then -n else n
    if rest.all Format.isBlank && value = value.bmod 18446744073709551616 then .ok value
    else .error (.illegalNumber text)
  | none => .error (.illegalNumber text)

/-- What can be asked about a file, by the operator that asks. -/
abbrev Inspect := String → String → Bool

def property (inspect : Inspect) (op text : String) : Bool :=
  match op with
  | "-z" => text.isEmpty
  | "-n" => !text.isEmpty
  | op => inspect op text

def compare (op a b : String) : Except Fault Bool := do
  match op with
  | "=" => return a = b
  | "!=" => return a ≠ b
  | "<" => return a < b
  | ">" => return b < a
  | "-nt" | "-ot" | "-ef" => return false
  | _ =>
    let x ← integer a
    let y ← integer b
    match op with
    | "-eq" => return x = y
    | "-ne" => return x ≠ y
    | "-ge" => return y ≤ x
    | "-gt" => return y < x
    | "-le" => return x ≤ y
    | _ => return x < y

/-- A condition at the start of arguments: whether it holds, and the arguments from its last one on.
Conditions in parentheses are read by `inner`. -/
def primary (inspect : Inspect) (inner : List String → Except Fault (Bool × List String))
    (args : List String) : Except Fault (Bool × List String) := do
  match kind args, args with
  | .missing, _ | _, [] => return (false, args)
  | .opening, _ :: rest =>
    if kind rest = .closing then return (false, rest)
    let (holds, args) ← inner rest
    if kind args.tail = .closing then return (holds, args.tail) else throw .closingParen
  | .unary, op :: rest =>
    match rest with
    | text :: _ => return (property inspect op text, rest)
    | [] => throw (.argumentExpected op)
  | _, a :: rest =>
    match kind rest, rest with
    | .binary, op :: operand =>
      match operand with
      | b :: _ => return (← compare op a b, operand)
      | [] => throw (.argumentExpected op)
    | _, _ => return (!a.isEmpty, args)

def negatable (inspect : Inspect) (inner : List String → Except Fault (Bool × List String)) :
    Nat → List String → Except Fault (Bool × List String)
  | 0, args => primary inspect inner args
  | n + 1, args => do
    if kind args != .not then primary inspect inner args
    else if args.tail.isEmpty then return (true, args)
    else
      let (holds, args) ← negatable inspect inner n args.tail
      return (!holds, args)

/-- Conditions combined by an operator. All of them are looked at. -/
def combined (op : Kind) (join : Bool → Bool → Bool)
    (operand : List String → Except Fault (Bool × List String)) :
    Nat → List String → Except Fault (Bool × List String)
  | 0, args => operand args
  | n + 1, args => do
    let (holds, args) ← operand args
    if kind args.tail != op then return (holds, args)
    let (also, args) ← combined op join operand n (args.drop 2)
    return (join holds also, args)

/-- A condition in which conditions are nested to a given depth. -/
def expression (inspect : Inspect) : Nat → List String → Except Fault (Bool × List String)
  | 0, args => .ok (false, args)
  | n + 1, args =>
    combined .or (· || ·) (combined .and (· && ·) (negatable inspect (expression inspect n) n) n) n
      args

/-- The condition of arguments in the order that they have, which must be all of it. -/
def whole (inspect : Inspect) (args : List String) : Except Fault Bool := do
  let (holds, rest) ← expression inspect (args.length + 1) args
  match rest with
  | text :: _ :: _ => throw (.unexpectedOperator text)
  | _ => return holds

/-- Whether the condition of arguments holds. Three arguments with a comparison in the middle are
that comparison; of three or four, parentheses around them go, and a negation in front counts for
all that follows. -/
def holds (inspect : Inspect) : Nat → List String → Except Fault Bool
  | 0, args => whole inspect args
  | n + 1, args => do
    match args with
    | [] => return false
    | [a, op, b] =>
      if operator? op = some .binary then compare op a b
      else if a = "(" && b = ")" then whole inspect [op]
      else if a = "!" then return !(← holds inspect n [op, b])
      else whole inspect args
    | [a, b, c, d] =>
      if a = "(" && d = ")" then whole inspect [b, c]
      else if a = "!" then return !(← holds inspect n [b, c, d])
      else whole inspect args
    | _ => whole inspect args

end NativeCode.Shell.Condition
