import NativeCode.Text.Bytes

/-!
# Patterns

A pattern matches texts byte by byte: a star matches any text, a question mark any byte, brackets
one of the bytes they list or, after a mark, none of them. A quoted character matches itself.
-/

namespace NativeCode.Shell

/-- A member of a bracket: a range of bytes, or a class given by its name. -/
inductive Member where
  | range (first last : UInt8)
  | named (name : String)
  deriving DecidableEq, Inhabited

def Member.has (b : UInt8) (m : Member) : Bool :=
  let c := Char.ofUInt8 b
  match m with
  | range first last => first ≤ b && b ≤ last
  | named "alpha" => c.isAlpha
  | named "digit" => c.isDigit
  | named "alnum" => c.isAlphanum
  | named "upper" => c.isUpper
  | named "lower" => c.isLower
  | named "blank" => c = ' ' || c = '\t'
  | named "space" => c = ' ' || ('\t' ≤ c && c ≤ '\r')
  | named "xdigit" => c.isDigit || ('a' ≤ c.toLower && c.toLower ≤ 'f')
  | named "punct" => '!' ≤ c && c ≤ '~' && !c.isAlphanum
  | named "print" => ' ' ≤ c && c ≤ '~'
  | named "graph" => '!' ≤ c && c ≤ '~'
  | named "cntrl" => c < ' ' || c = '\x7f'
  | named _ => false

inductive PatternItem where
  | byte (b : UInt8)
  | one
  | any
  | bracket (negated : Bool) (members : List Member)
  deriving DecidableEq, Inhabited

abbrev Pattern := List PatternItem

namespace Pattern

/-- A written byte of a pattern, as a character, and whether it is quoted. -/
abbrev Written := Char × Bool

def range (first last : Char) : Member := .range first.toUInt8 last.toUInt8

/-- The members of a bracket up to its end, and what follows. A bracket is not ended by its first
byte. -/
def members : Nat → Bool → List Written → Option (List Member × List Written)
  | 0, _, _ => none
  | _ + 1, _, [] => none
  | n + 1, isFirst, (c, quoted) :: rest => do
    if c = ']' && !quoted && !isFirst then return ([], rest)
    match c, quoted, rest with
    | '[', false, (':', _) :: more =>
      let name := more.takeWhile fun p => p.1.isAlpha
      match more.drop name.length with
      | (':', _) :: (']', _) :: after =>
        let (ms, rest) ← members n false after
        return (.named (String.ofList (name.map (·.1))) :: ms, rest)
      | _ =>
        let (ms, rest) ← members n false rest
        return (range c c :: ms, rest)
    | _, _, ('-', false) :: (d, dq) :: after =>
      if d = ']' && !dq then
        let (ms, rest) ← members n false rest
        return (range c c :: ms, rest)
      else
        let (ms, rest) ← members n false after
        return (range c d :: ms, rest)
    | _, _, _ =>
      let (ms, rest) ← members n false rest
      return (range c c :: ms, rest)

/-- The pattern of written bytes, of which at most a number is read. -/
def read : Nat → List Written → Pattern
  | 0, _ | _, [] => []
  | n + 1, (c, quoted) :: rest =>
    let itself : PatternItem := .byte c.toUInt8
    if quoted then itself :: read n rest
    else if c = '*' then .any :: read n rest
    else if c = '?' then .one :: read n rest
    else if c = '[' then
      let (negated, inner) :=
        match rest with
        | ('!', false) :: inner => (true, inner)
        | inner => (false, inner)
      match members (inner.length + 1) true inner with
      | some (ms, after) => .bracket negated ms :: read n after
      | none => itself :: read n rest
    else itself :: read n rest

/-- The pattern written by characters, each with a flag that says whether it is quoted. -/
def ofChars (cs : List (Char × Bool)) : Pattern :=
  let bytes := cs.flatMap fun (c, quoted) =>
    (String.utf8EncodeChar c).map fun b => (Char.ofUInt8 b, quoted)
  read bytes.length bytes

def someEnd (test : Bytes → Bool) : Bytes → Bool
  | [] => test []
  | b :: bs => test (b :: bs) || someEnd test bs

def isMatch : Pattern → Bytes → Bool
  | [], bs => bs.isEmpty
  | .any :: p, bs => someEnd (isMatch p) bs
  | .byte a :: p, b :: bs => a = b && isMatch p bs
  | .one :: p, _ :: bs => isMatch p bs
  | .bracket negated ms :: p, b :: bs => ms.any (·.has b) != negated && isMatch p bs
  | _ :: _, [] => false

def isProper (p : Pattern) : Bool := p.any fun e => match e with
  | .byte _ => false
  | _ => true

/-- Bytes without the beginning that a pattern matches: the shortest one, or the longest. -/
def trimStart (p : Pattern) (longest : Bool) (bs : Bytes) : Bytes :=
  let lengths := (List.range (bs.length + 1)).filter fun n => p.isMatch (bs.take n)
  bs.drop ((if longest then lengths.getLast? else lengths.head?).getD 0)

/-- Bytes without the end that a pattern matches: the shortest one, or the longest. -/
def trimEnd (p : Pattern) (longest : Bool) (bs : Bytes) : Bytes :=
  let lengths := (List.range (bs.length + 1)).filter fun n => p.isMatch (bs.drop n)
  bs.take ((if longest then lengths.head? else lengths.getLast?).getD bs.length)

end Pattern

end NativeCode.Shell
