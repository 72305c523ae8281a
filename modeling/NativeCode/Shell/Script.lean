import NativeCode.Shell.Command

/-!
# Reading shell scripts

A script is read one complete command at a time: a list of commands up to the end of a line on which
nothing is left open. What comes later can still be no script.
-/

namespace NativeCode.Shell

inductive Fault where
  | unexpected (token : String) (expecting : Option String)
  | unclosed (o : Opening)
  | loopVariable
  | functionName
  deriving DecidableEq, Inhabited

structure Misread where
  line : Nat
  fault : Fault
  deriving DecidableEq, Inhabited

def Fault.message : Fault → String
  | unexpected token none => s!"{token} unexpected"
  | unexpected token (some other) => s!"{token} unexpected (expecting {other})"
  | unclosed .quote => "Unterminated quoted string"
  | unclosed .brace => "Missing '\x7d'"
  | unclosed .command => "end of file unexpected (expecting \")\")"
  | unclosed .backquote => "EOF in backquote substitution"
  | unclosed .arithmetic => "Missing '))'"
  | loopVariable => "Bad for loop variable"
  | functionName => "Bad function name"

namespace Script

/-- What is read from: tokens, and a check of the scripts inside words. -/
structure Stream where
  lexemes : List Lexeme
  verify : List Lexeme → Except Misread Unit

abbrev Reading := StateT Stream (Except Misread)

def modifyLexemes (f : List Lexeme → List Lexeme) : Reading Unit :=
  modify fun s => { s with lexemes := f s.lexemes }

/-- Words that mean something where a command can begin. -/
def keywords : List String :=
  ["!", "case", "do", "done", "elif", "else", "esac", "fi", "for", "if", "in", "then", "until",
    "while", "\x7b", "\x7d"]

/-- The text of a word in which every character kept its meaning. -/
def plainText? (w : List Part) : Option String :=
  (w.mapM fun (p : Part) => match p with
    | .plain c => some c
    | _ => none).map String.ofList

def keyword? : Token → Option String
  | .word w => (plainText? w).filter keywords.contains
  | _ => none

def inQuotes (text : String) : String := "\"" ++ text ++ "\""

def tokenName (t : Token) : String :=
  match t with
  | .word _ => ((keyword? t).map inQuotes).getD "word"
  | .descriptor _ => "redirection"
  | .operator .newline => "newline"
  | .operator op => if op.redirects then "redirection" else inQuotes op.text
  | .document _ _ | .unclosed _ | .eof => "end of file"

def peek : Reading Lexeme := do
  modifyLexemes fun ls => ls.dropWhile fun l => match l.token with
    | .document _ _ => true
    | _ => false
  let l := (← get).lexemes.headD ⟨.eof, 1⟩
  match l.token with
  | .unclosed o => throw ⟨l.line, .unclosed o⟩
  | _ => return l

def advance : Reading Unit := modifyLexemes List.tail

def passWord (w : List Part) : Reading Unit := do
  advance
  for p in w do
    if let .expansion (.command text line?) _ := p then
      (← get).verify (lexemes (line?.getD 1) text)

def unexpected {α : Type} (expecting : Option String := none) : Reading α := do
  let l ← peek
  throw ⟨l.line, .unexpected (tokenName l.token) (expecting.map inQuotes)⟩

/-- The next token is not what could stand where no keyword is one. -/
def unexpectedWord {α : Type} (expecting : Option String := none) : Reading α := do
  let l ← peek
  let name := match l.token with
    | .word _ => "word"
    | t => tokenName t
  throw ⟨l.line, .unexpected name (expecting.map inQuotes)⟩

def isNext (op : Operator) : Reading Bool := return (← peek).token = .operator op

def accept (op : Operator) : Reading Bool := do
  let found ← isNext op
  if found then advance
  return found

def skipNewlines : Reading Unit :=
  modifyLexemes fun ls => ls.dropWhile fun l => match l.token with
    | .document _ _ | .operator .newline => true
    | _ => false

def acceptKeyword (text : String) : Reading Bool := do
  let found := keyword? (← peek).token = some text
  if found then advance
  return found

def expectKeyword (text : String) : Reading Unit := do
  if !(← acceptKeyword text) then unexpected (some text)

def expect (op : Operator) : Reading Unit := do
  if !(← accept op) then unexpected (some op.text)

def endsList (t : Token) : Bool :=
  match t with
  | .eof | .operator .closeParen | .operator .semiSemi => true
  | _ =>
    match keyword? t with
    | some text => ["do", "done", "elif", "else", "esac", "fi", "then", "\x7d"].contains text
    | none => false

def takeDocument : List Lexeme → Option (List Char × Bool) × List Lexeme
  | [] => (none, [])
  | l :: ls =>
    match l.token with
    | .document text fixed => (some (text, fixed), ls)
    | _ =>
      let (found, ls) := takeDocument ls
      (found, l :: ls)

def redirection? : Operator → Option (Nat × Redirection)
  | .less => some (0, .read)
  | .lessGreat => some (0, .update)
  | .lessAnd => some (0, .copy)
  | .lessLess | .lessLessDash => some (0, .document [] true)
  | .great => some (1, .write false)
  | .clobber => some (1, .write true)
  | .greatGreat => some (1, .append)
  | .greatAnd => some (1, .copy)
  | _ => none

def redirect? : Reading (Option Redirect) := do
  let digit? ← (do match (← peek).token with
    | .descriptor c => advance; return some (c.toNat - '0'.toNat)
    | _ => return none : Reading (Option Nat))
  match (← peek).token with
  | .operator op =>
    match redirection? op with
    | none => return none
    | some (fd, kind) =>
      advance
      match (← peek).token with
      | .word target =>
        passWord target
        let fd := digit?.getD fd
        match kind with
        | .document _ _ =>
          let (found, ls) := takeDocument (← get).lexemes
          modifyLexemes fun _ => ls
          let (text, fixed) := found.getD ([], true)
          return some { fd, kind := .document text fixed }
        | kind => return some { fd, kind, target }
      | _ => unexpectedWord
  | _ => return none

/-- Redirections as long as they are next, at most a number of them. -/
def redirects : Nat → Reading (List Redirect)
  | 0 => return []
  | n + 1 => do
    match ← redirect? with
    | none => return []
    | some r => return r :: (← redirects n)

/-- The name and the value of a word that is an assignment. -/
def assignment? (w : List Part) : Option (String × List Part) :=
  let name := w.takeWhile fun p => match p with
    | .plain c => isNameChar c
    | _ => false
  match plainText? name, w.drop name.length with
  | some text, .plain '=' :: value => if isName text.toList then some (text, value) else none
  | _, _ => none

def specialNames : List String :=
  [".", ":", "break", "continue", "eval", "exec", "exit", "export", "local", "readonly", "return",
    "set", "shift", "times", "trap", "unset"]

/-- The rest of a simple command, after a number of its words and redirections. A function is
defined by a name before parentheses; its body is read by `command`. -/
def simple (command : Reading Command) (line : Nat) :
    Nat → List (String × List Part) → List (List Part) → List Redirect → Reading Command
  | 0, as, ws, rs => return .simple line as ws rs
  | n + 1, as, ws, rs => do
    match (← peek).token with
    | .word w =>
      passWord w
      match ws.isEmpty, assignment? w with
      | true, some a => simple command line n (as ++ [a]) ws rs
      | _, _ => simple command line n as (ws ++ [w]) rs
    | .operator .openParen =>
      match as, ws, rs with
      | [], [w], [] =>
        advance
        expect .closeParen
        let name := (plainText? w).getD ""
        if !isName name.toList || specialNames.contains name then
          throw ⟨(← peek).line, .functionName⟩
        skipNewlines
        return .define name (← command)
      | _, _, _ => return .simple line as ws rs
    | _ =>
      match ← redirect? with
      | some r => simple command line n as ws (rs ++ [r])
      | none => return .simple line as ws rs

def pipeline (command : Reading Command) : Nat → Command → Reading Command
  | 0, c => return c
  | n + 1, c => do
    if !(← accept .bar) then return c
    skipNewlines
    pipeline command n (.pipe c (← command))

def negatable (command : Reading Command) (n : Nat) : Reading Command := do
  let negated ← acceptKeyword "!"
  let c ← pipeline command n (← command)
  return if negated then .negated c else c

def conditions (command : Reading Command) : Nat → Command → Reading Command
  | 0, c => return c
  | n + 1, c => do
    let both ← accept .andIf
    let either ← if both then pure false else accept .orIf
    if !both && !either then return c
    skipNewlines
    let d ← negatable command n
    conditions command n (if both then .both c d else .either c d)

/-- Commands in order; an empty list of them does nothing. -/
def join (c d : Command) : Command := if c = .nothing then d else .sequence c d

/-- Where a list of commands stands: it is a line of a script, or it is inside a command and must
have a command or can be empty. -/
inductive Extent where
  | line
  | some
  | any
  deriving DecidableEq, Inhabited

/-- A list of commands after those that have been read. -/
def list (command : Reading Command) : Nat → Extent → Command → Reading Command
  | 0, _, c => return c
  | n + 1, extent, c => do
    if extent != .line then skipNewlines
    let t := (← peek).token
    if t = .operator .newline then
      advance
      return c
    if t = .eof || (extent = .any && endsList t) then return c
    let d ← conditions command n (← negatable command n)
    let background ← accept .amp
    let c := join c (if background then .background d else d)
    let next := if extent = .some then .any else extent
    if background || (← accept .semi) then list command n next c
    else if ← isNext .newline then list command n next c
    else if extent = .line && (← peek).token != .eof then unexpected
    else return c

def loopWords : Nat → Reading (List (List Part))
  | 0 => return []
  | n + 1 => do
    match (← peek).token with
    | .word w => passWord w; return w :: (← loopWords n)
    | _ => return []

/-- The patterns of an arm up to the parenthesis that ends them. -/
def armPatterns : Nat → Reading (List (List Part))
  | 0 => return []
  | n + 1 => do
    let t := (← peek).token
    let w := match t with
      | .word w => w
      | _ => []
    if t != .eof then passWord w
    if ← accept .bar then return w :: (← armPatterns n)
    if !(← accept .closeParen) then unexpectedWord (some ")")
    return [w]

def arms (command : Reading Command) : Nat → Reading Command
  | 0 => return .nothing
  | n + 1 => do
    skipNewlines
    if ← acceptKeyword "esac" then return .nothing
    let _ ← accept .openParen
    let patterns ← armPatterns n
    let body ← list command n .any .nothing
    if ← acceptKeyword "esac" then return .arm patterns body .nothing
    expect .semiSemi
    return .arm patterns body (← arms command n)

def branches (command : Reading Command) : Nat → Reading Command
  | 0 => return .nothing
  | n + 1 => do
    if ← acceptKeyword "elif" then
      let test ← list command n .some .nothing
      expectKeyword "then"
      let yes ← list command n .some .nothing
      return .choice test yes (← branches command n)
    else if ← acceptKeyword "else" then
      let no ← list command n .some .nothing
      expectKeyword "fi"
      return no
    else
      expectKeyword "fi"
      return .nothing

def forLoop (body : Reading Command) (line n : Nat) : Reading Command := do
  let name ← (do match (← peek).token with
    | .word w => return (plainText? w).getD ""
    | _ => return "" : Reading String)
  if !isName name.toList then throw ⟨(← peek).line, .loopVariable⟩
  advance
  skipNewlines
  let words? ← (do
    if ← acceptKeyword "in" then
      let words ← loopWords n
      if !(← accept .semi) && !(← accept .newline) then unexpectedWord
      return some words
    else
      let _ ← accept .semi
      return none : Reading (Option (List (List Part))))
  skipNewlines
  expectKeyword "do"
  let body ← body
  expectKeyword "done"
  return .each line name words? body

/-- A command that is no simple command, after its keyword. -/
def compound (command : Reading Command) (line n : Nat) (keyword : String) :
    Reading Command := do
  let body := list command n .some .nothing
  match keyword with
  | "if" =>
    let test ← body
    expectKeyword "then"
    let yes ← body
    return .choice test yes (← branches command n)
  | "while" | "until" =>
    let test ← body
    expectKeyword "do"
    let inner ← body
    expectKeyword "done"
    return .loop (keyword = "until") test inner
  | "for" => forLoop body line n
  | "case" =>
    match (← peek).token with
    | .word subject =>
      passWord subject
      skipNewlines
      expectKeyword "in"
      return .select line subject (← arms command n)
    | t => throw ⟨(← peek).line, .unexpected (tokenName t) (some "word")⟩
  | _ =>
    let c ← body
    expectKeyword "\x7d"
    return c

def starters : List String := ["if", "while", "until", "for", "case", "\x7b"]

/-- A command, in which commands are nested to a given depth. -/
def command : Nat → Reading Command
  | 0 => unexpected
  | n + 1 => do
    let l ← peek
    let redirectable (c : Command) : Reading Command := do
      match ← redirects n with
      | [] => return c
      | rs => return .redirected l.line c rs
    match l.token, keyword? l.token with
    | _, some keyword =>
      if starters.contains keyword then
        advance
        redirectable (← compound (command n) l.line n keyword)
      else unexpected
    | .word _, none | .descriptor _, none => simple (command n) l.line n [] [] []
    | .operator .openParen, none =>
      advance
      let c ← list (command n) n .some .nothing
      expect .closeParen
      return .subshell l.line c (← redirects n)
    | .operator op, none =>
      if op.redirects then simple (command n) l.line n [] [] [] else unexpected
    | _, _ => unexpected

/-- Checks that tokens are those of a script inside a word, with scripts nested to a given depth. -/
def verify : Nat → List Lexeme → Except Misread Unit
  | 0, _ => .ok ()
  | depth + 1, ls => do
    let n := ls.length + 1
    let whole : Reading Unit := do
      let _ ← list (command n) n .any .nothing
      if (← peek).token != .eof then unexpected (some ")")
    discard <| whole.run { lexemes := ls, verify := verify depth }

def maxNesting : Nat := 100

/-- The next complete command of a script and the tokens after it. -/
def next? (ls : List Lexeme) : Except Misread (Option (Command × List Lexeme)) := do
  match ls with
  | [] | [⟨.eof, _⟩] => return none
  | _ =>
    let n := ls.length + 1
    let stream := { lexemes := ls, verify := verify maxNesting }
    let (c, rest) ← (list (command n) n .line .nothing).run stream
    return some (c, rest.lexemes)

end Script

end NativeCode.Shell
