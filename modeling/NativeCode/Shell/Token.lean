import NativeCode.Shell.Part

/-!
# Tokens of shell text

Once quotes are resolved, shell text falls into words and operators. Blanks that kept their meaning
part words. A digit directly before a redirection is no word.
-/

namespace NativeCode.Shell

inductive Operator where
  | newline
  | semi
  | semiSemi
  | amp
  | andIf
  | bar
  | orIf
  | openParen
  | closeParen
  | less
  | lessLess
  | lessLessDash
  | lessAnd
  | lessGreat
  | great
  | greatGreat
  | greatAnd
  | clobber
  deriving DecidableEq, Inhabited

namespace Operator

def text : Operator → String
  | newline => "\n"
  | semi => ";"
  | semiSemi => ";;"
  | amp => "&"
  | andIf => "&&"
  | bar => "|"
  | orIf => "||"
  | openParen => "("
  | closeParen => ")"
  | less => "<"
  | lessLess => "<<"
  | lessLessDash => "<<-"
  | lessAnd => "<&"
  | lessGreat => "<>"
  | great => ">"
  | greatGreat => ">>"
  | greatAnd => ">&"
  | clobber => ">|"

def single? : Char → Option Operator
  | '\n' => some newline
  | ';' => some semi
  | '&' => some amp
  | '|' => some bar
  | '(' => some openParen
  | ')' => some closeParen
  | '<' => some less
  | '>' => some great
  | _ => none

/-- The operator of two characters that starts with a shorter one. -/
def pair? : Operator → Char → Option Operator
  | semi, ';' => some semiSemi
  | amp, '&' => some andIf
  | bar, '|' => some orIf
  | less, '<' => some lessLess
  | less, '&' => some lessAnd
  | less, '>' => some lessGreat
  | great, '>' => some greatGreat
  | great, '&' => some greatAnd
  | great, '|' => some clobber
  | _, _ => none

def redirects : Operator → Bool
  | less | lessLess | lessLessDash | lessAnd | lessGreat => true
  | great | greatGreat | greatAnd | clobber => true
  | _ => false

end Operator

inductive Token where
  | word (parts : List Part)
  /-- A digit written directly before a redirection. -/
  | descriptor (digit : Char)
  | operator (op : Operator)
  /-- The lines that a redirection reads. -/
  | document (text : List Char) (fixed : Bool)
  /-- The end of a text in which something is left open. -/
  | unclosed (o : Opening)
  | eof
  deriving DecidableEq, Inhabited

/-- A word whose characters stand for themselves because it is in quotes. -/
def Token.ofQuoted (text : String) : Token :=
  .word (.quotes :: (text.toList.map .quoted ++ [.quotes]))

structure Lexeme where
  token : Token
  line : Nat
  deriving DecidableEq, Inhabited

namespace Expansion

def text : Expansion → List Char
  | parameter text | braces text | command text _ | arithmetic text => text

end Expansion

def Part.lines : Part → Nat
  | plain c | quoted c => if c = '\n' then 1 else 0
  | joint => 1
  | quotes => 0
  | expansion x _ => x.text.count '\n'
  | document text _ => text.count '\n' + 1
  | unclosed _ lines => lines

/-- A part that starts on a line. A script in it starts there. -/
def Part.startingAt (line : Nat) : Part → Part
  | expansion (.command text none) isQuoted => .expansion (.command text (some line)) isQuoted
  | p => p

/-- A pending word with one more part, the last first. -/
def extendWord (w : Option (List Part)) (p : Part) : Option (List Part) :=
  if p = .joint then w else some (p :: w.getD [])

def finish (line : Nat) : Option (List Part) → List Lexeme
  | none => []
  | some ps => [⟨.word ps.reverse, line⟩]

def finishBefore (op : Operator) (line : Nat) (w : Option (List Part)) : List Lexeme :=
  match w with
  | some [.plain c] =>
    if op.redirects && c.isDigit then [⟨.descriptor c, line⟩] else finish line w
  | _ => finish line w

/-- Reads on in the parts of a text, with a word that may be pending. -/
def lexemesFrom (line : Nat) (w : Option (List Part)) : List Part → List Lexeme
  | [] => finish line w ++ [⟨.eof, line⟩]
  | .document text fixed :: ps =>
    let line := line + (Part.document text fixed).lines
    ⟨.document text fixed, line⟩ :: lexemesFrom line none ps
  | .unclosed o lines :: _ => [⟨.unclosed o, line + lines⟩]
  | .plain c :: ps =>
    if c = ' ' || c = '\t' then finish line w ++ lexemesFrom line none ps
    else
      match Operator.single? c with
      | none => lexemesFrom line (extendWord w (.plain c)) ps
      | some .newline =>
        finish line w ++ ⟨.operator .newline, line + 1⟩ :: lexemesFrom (line + 1) none ps
      | some op =>
        let before := finishBefore op line w
        match ps with
        | .plain d :: qs =>
          match op.pair? d with
          | none => before ++ ⟨.operator op, line⟩ :: lexemesFrom line none (.plain d :: qs)
          | some both =>
            match qs with
            | q :: rs =>
              if both = .lessLess && q = .plain '-' then
                before ++ ⟨.operator .lessLessDash, line⟩ :: lexemesFrom line none rs
              else before ++ ⟨.operator both, line⟩ :: lexemesFrom line none (q :: rs)
            | [] => before ++ [⟨.operator both, line⟩, ⟨.eof, line⟩]
        | p :: ps => before ++ ⟨.operator op, line⟩ :: lexemesFrom line none (p :: ps)
        | [] => before ++ [⟨.operator op, line⟩, ⟨.eof, line⟩]
  | p :: ps => lexemesFrom (line + p.lines) (extendWord w (p.startingAt line)) ps

def lexemes (line : Nat) (text : List Char) : List Lexeme :=
  lexemesFrom line none (parts .script text)

end NativeCode.Shell
