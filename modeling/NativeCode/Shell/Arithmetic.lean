import NativeCode.Shell.Format.Argument
import NativeCode.Shell.Part

/-!
# Arithmetic expressions

Expressions over signed 64-bit integers and variables, with the operators and the precedence that
are usual for them. A comparison gives one or zero, and every other number than zero is true.
-/

namespace NativeCode.Shell.Arithmetic

/-- The operators with two operands that both have a value. -/
inductive Binary where
  | mul | div | rem | add | sub | shl | shr
  | lt | le | gt | ge | eq | ne
  | and | xor | or
  deriving DecidableEq, Inhabited

inductive Expr where
  | number (n : Int)
  | named (name : String)
  | negate (e : Expr)
  | complement (e : Expr)
  | not (e : Expr)
  | binary (op : Binary) (a b : Expr)
  /-- The second operand counts if the first is true. -/
  | both (a b : Expr)
  /-- The second operand counts if the first is false. -/
  | either (a b : Expr)
  | choice (test yes no : Expr)
  | assign (name : String) (e : Expr)
  deriving DecidableEq, Inhabited

/-- Why a text is no expression, or an expression has no value. -/
inductive Fault where
  | expectingPrimary
  | expectingEnd
  | expectingParen
  | expectingColon
  | divisionByZero
  deriving DecidableEq, Inhabited

def Fault.message : Fault → String
  | expectingPrimary => "expecting primary"
  | expectingEnd => "expecting EOF"
  | expectingParen => "expecting ')'"
  | expectingColon => "expecting ':'"
  | divisionByZero => "division by zero"

inductive Token where
  | number (n : Int)
  | name (text : String)
  | symbol (text : String)
  deriving DecidableEq, Inhabited

/-- The symbols, longer ones before those they start with. -/
def symbols : List String :=
  ["<<=", ">>=", "<<", ">>", "<=", ">=", "==", "!=", "&&", "||", "*=", "/=", "%=", "+=", "-=", "&=",
    "^=", "|=", "=", "<", ">", "+", "-", "*", "/", "%", "&", "^", "|", "!", "~", "(", ")", "?", ":"]

/-- The integer at the start of a text, in the range of 64 bits. -/
def leading? (cs : List Char) : Option (Int × List Char) :=
  (Format.leadingInteger? cs).map fun n => (min n.size 9223372036854775807, n.rest)

/-- The tokens of a text. A character that starts no token is a symbol of its own. -/
def tokens : Nat → List Char → List Token
  | 0, _ | _, [] => []
  | n + 1, c :: cs =>
    if Format.isBlank c then tokens n cs
    else if c.isDigit then
      match leading? (c :: cs) with
      | some (value, rest) => .number value :: tokens n rest
      | none => tokens n cs
    else if isNameChar c then
      .name (String.ofList (c :: cs.takeWhile isNameChar)) :: tokens n (cs.dropWhile isNameChar)
    else
      match symbols.find? fun s => s.toList.isPrefixOf (c :: cs) with
      | some s => .symbol s :: tokens n ((c :: cs).drop s.length)
      | none => .symbol c.toString :: tokens n cs

abbrev Reading := StateT (List Token) (Except Fault)

def accept (text : String) : Reading Bool := do
  match ← get with
  | .symbol s :: rest =>
    if s = text then
      set rest
      return true
    else return false
  | _ => return false

/-- The operators with two operands, by how closely they bind: those of a level bind more closely
than those of the levels below it. -/
def levels : List (List (String × Binary)) :=
  [[("*", .mul), ("/", .div), ("%", .rem)], [("+", .add), ("-", .sub)],
    [("<<", .shl), (">>", .shr)], [("<", .lt), ("<=", .le), (">", .gt), (">=", .ge)],
    [("==", .eq), ("!=", .ne)], [("&", .and)], [("^", .xor)], [("|", .or)]]

/-- The operators that assign, with what they do before. -/
def assignments : List (String × Option Binary) :=
  [("=", none), ("*=", some .mul), ("/=", some .div), ("%=", some .rem), ("+=", some .add),
    ("-=", some .sub), ("<<=", some .shl), (">>=", some .shr), ("&=", some .and),
    ("^=", some .xor), ("|=", some .or)]

def operands (ops : List (String × Binary)) (operand : Reading Expr) : Nat → Expr → Reading Expr
  | 0, a => return a
  | n + 1, a => do
    match ← get with
    | .symbol s :: rest =>
      match ops.lookup s with
      | some op =>
        set rest
        operands ops operand n (.binary op a (← operand))
      | none => return a
    | _ => return a

/-- An expression with operators of the given levels, those that bind least closely first. -/
def leveled (n : Nat) (primary : Reading Expr) : List (List (String × Binary)) → Reading Expr
  | [] => primary
  | ops :: closer => do
    let operand := leveled n primary closer
    operands ops operand n (← operand)

def logical (symbol : String) (join : Expr → Expr → Expr) (operand : Reading Expr) :
    Nat → Expr → Reading Expr
  | 0, a => return a
  | n + 1, a => do
    if ← accept symbol then logical symbol join operand n (join a (← operand)) else return a

/-- A number, a variable, an expression in parentheses, or one of these after signs. -/
def primary (expression : Reading Expr) : Nat → Reading Expr
  | 0 => throw .expectingPrimary
  | n + 1 => do
    match ← get with
    | .number value :: rest => set rest; return .number value
    | .name text :: rest => set rest; return .named text
    | .symbol s :: rest =>
      match s with
      | "(" =>
        set rest
        let e ← expression
        if ← accept ")" then return e else throw .expectingParen
      | "+" => set rest; primary expression n
      | "-" => set rest; return .negate (← primary expression n)
      | "~" => set rest; return .complement (← primary expression n)
      | "!" => set rest; return .not (← primary expression n)
      | _ => throw .expectingPrimary
    | [] => throw .expectingPrimary

def choice (expression : Reading Expr) (n : Nat) : Nat → Reading Expr
  | 0 => throw .expectingPrimary
  | depth + 1 => do
    let simple := leveled n (primary expression n) levels.reverse
    let conjunction : Reading Expr := do logical "&&" .both simple n (← simple)
    let test ← logical "||" .either conjunction n (← conjunction)
    if !(← accept "?") then return test
    let yes ← expression
    if !(← accept ":") then throw .expectingColon
    return .choice test yes (← choice expression n depth)

/-- An assignment or a choice, in which expressions are nested to a given depth. -/
def expression : Nat → Reading Expr
  | 0 => throw .expectingPrimary
  | n + 1 => do
    match ← get with
    | .name text :: .symbol s :: rest =>
      match assignments.lookup s with
      | some op? =>
        set rest
        let e ← expression n
        return .assign text ((op?.map fun op => .binary op (.named text) e).getD e)
      | none => choice (expression n) n n
    | _ => choice (expression n) n n

def read (cs : List Char) : Except Fault Expr := do
  let ts := tokens cs.length cs
  let (e, rest) ← (expression (ts.length + 1)).run ts
  if rest.isEmpty then return e else throw .expectingEnd

/-- The signed 64-bit integer that an integer wraps to. -/
def wrap (n : Int) : Int := n.bmod 18446744073709551616

def ofBool (b : Bool) : Int := if b then 1 else 0

/-- The value of an operator, unless it is a division by zero. -/
def Binary.apply (op : Binary) (a b : Int) : Except Fault Int :=
  let bits (f : BitVec 64 → BitVec 64 → BitVec 64) : Int :=
    (f (BitVec.ofInt 64 a) (BitVec.ofInt 64 b)).toInt
  match op with
  | mul => .ok (wrap (a * b))
  | div => if b = 0 then .error .divisionByZero else .ok (wrap (a.tdiv b))
  | rem => if b = 0 then .error .divisionByZero else .ok (wrap (a.tmod b))
  | add => .ok (wrap (a + b))
  | sub => .ok (wrap (a - b))
  | shl => .ok (bits fun x y => x <<< (y.toNat % 64))
  | shr => .ok (bits fun x y => x.sshiftRight (y.toNat % 64))
  | lt => .ok (ofBool (a < b))
  | le => .ok (ofBool (a ≤ b))
  | gt => .ok (ofBool (b < a))
  | ge => .ok (ofBool (b ≤ a))
  | eq => .ok (ofBool (a = b))
  | ne => .ok (ofBool (a ≠ b))
  | and => .ok (bits (· &&& ·))
  | xor => .ok (bits (· ^^^ ·))
  | or => .ok (bits (· ||| ·))

/-- The value of an expression. Variables are read and assigned by actions. -/
def Expr.eval {m : Type → Type} [Monad m] (get : String → m Int) (assign : String → Int → m Unit)
    (fail : Fault → m Int) : Expr → m Int
  | number n => return n
  | named name => get name
  | negate e => return wrap (-(← e.eval get assign fail))
  | complement e => return -(← e.eval get assign fail) - 1
  | not e => return ofBool ((← e.eval get assign fail) = 0)
  | binary op a b => do
    let x ← a.eval get assign fail
    let y ← b.eval get assign fail
    match op.apply x y with
    | .ok n => return n
    | .error f => fail f
  | both a b => do
    if (← a.eval get assign fail) = 0 then return 0
    return ofBool ((← b.eval get assign fail) ≠ 0)
  | either a b => do
    if (← a.eval get assign fail) ≠ 0 then return 1
    return ofBool ((← b.eval get assign fail) ≠ 0)
  | choice test yes no => do
    if (← test.eval get assign fail) ≠ 0 then yes.eval get assign fail
    else no.eval get assign fail
  | .assign name e => do
    let n ← e.eval get assign fail
    assign name n
    return n

end NativeCode.Shell.Arithmetic
