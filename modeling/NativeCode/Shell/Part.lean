/-!
# Characters of shell text

Before shell text falls into tokens, its quotes are resolved. A backslash, single quotes and double
quotes take their meaning from characters; a dollar or a backquote starts an expansion, also inside
double quotes unless a backslash stands before it. The text of an expansion is kept as it is written
and read when it is needed.
-/

namespace NativeCode.Shell

inductive Expansion where
  /-- A dollar before a name or a special parameter. -/
  | parameter (name : List Char)
  /-- A dollar before braces. -/
  | braces (text : List Char)
  /-- A script whose output is inserted, and the line that it starts on if that is known. -/
  | command (text : List Char) (line : Option Nat)
  /-- An arithmetic expression whose value is inserted. -/
  | arithmetic (text : List Char)
  deriving DecidableEq, Inhabited

/-- What is left open at the end of a text. -/
inductive Opening where
  | quote
  | brace
  | command
  | backquote
  | arithmetic
  deriving DecidableEq, Inhabited

/-- A part of a text with its quotes resolved. -/
inductive Part where
  /-- A character that may have a meaning. -/
  | plain (c : Char)
  /-- A character that stands for itself. -/
  | quoted (c : Char)
  /-- A quote, which makes a word even if nothing follows it. -/
  | quotes
  /-- The end of a line that a backslash joins to the next. -/
  | joint
  | expansion (x : Expansion) (quoted : Bool)
  /-- The lines of a text that a redirection reads, and whether they are free of expansions. -/
  | document (text : List Char) (fixed : Bool)
  /-- The end of a text in which something is left open, some lines before. -/
  | unclosed (o : Opening) (lines : Nat)
  deriving DecidableEq, Inhabited

inductive Place where
  /-- It is a script, with comments and lines. -/
  | script
  /-- It is part of a word. -/
  | word
  /-- It is part of a word in double quotes. -/
  | quotedWord
  /-- Its double quotes stand for themselves. -/
  | document
  deriving DecidableEq, Inhabited

def isNameChar (c : Char) : Bool := c.isAlphanum || c = '_'

def isName : List Char → Bool
  | [] => false
  | c :: cs => !c.isDigit && isNameChar c && cs.all isNameChar

/-- The parameters named by one character that no other name has. -/
def isSpecialParameter (c : Char) : Bool := c.isDigit || "@*#?-$!".contains c

/-- Characters before which a backslash inside double quotes takes the meaning. -/
def isEscapable (place : Place) (c : Char) : Bool :=
  c = '\\' || c = '$' || c = '\x60' || (c = '"' && place != .document)

def endsWord (c : Char) : Bool := " \t\n;&|()<>".contains c

/-- An expansion whose end is being looked for. -/
inductive Capture where
  | braces
  | command
  | backquote
  | arithmetic
  deriving DecidableEq, Inhabited

namespace Capture

/-- What is missing if the end of a text comes before closers, innermost first. -/
def opening (kind : Capture) (closers : List Char) : Opening :=
  match kind, closers with
  | backquote, _ => .backquote
  | arithmetic, [_] => .arithmetic
  | _, '\'' :: _ | _, '"' :: _ => .quote
  | _, '\x7d' :: _ => .brace
  | _, '\x60' :: _ => .backquote
  | _, _ => .command

/-- Inside backquotes a backslash takes the meaning of a few characters. -/
def unescape (isDouble : Bool) : List Char → List Char
  | '\\' :: c :: cs =>
    if c = '\\' || c = '$' || c = '\x60' || (c = '"' && isDouble) then c :: unescape isDouble cs
    else '\\' :: c :: unescape isDouble cs
  | c :: cs => c :: unescape isDouble cs
  | [] => []

def expansion (isDouble : Bool) (text : List Char) : Capture → Expansion
  | braces => .braces text
  | command => .command text none
  | backquote => .command (unescape isDouble text) (some 1)
  | arithmetic => .arithmetic text

end Capture

inductive Mode where
  /-- Outside quotes; the flag says whether a word can begin. -/
  | plain (atStart : Bool)
  | single
  | double
  | comment
  /-- In the name of a parameter, its last character first. -/
  | name (isDouble : Bool) (read : List Char)
  /-- In an expansion, inside further openings, given by what closes them, innermost first. The text
  read so far has its last character first. -/
  | capture (isDouble : Bool) (kind : Capture) (closers : List Char) (read : List Char)
  /-- In lines that a redirection reads, up to a line with a mark. -/
  | document (mark : List Char) (tabs fixed : Bool) (more : List (List Char × Bool × Bool))
    (line read : List Char)
  deriving DecidableEq, Inhabited

def Mode.after (isDouble : Bool) : Mode := if isDouble then .double else .plain false

/-- Stands for the word that ends a selection among what closes openings. -/
def selectionEnd : Char := '\x00'

def commandStarters : List String :=
  ["if", "then", "elif", "else", "while", "until", "do", "!", "\x7b"]

/-- Whether a command can begin after a text, given with its last character first. -/
def commandCanBegin (read : List Char) : Bool :=
  match read.dropWhile fun c => c = ' ' || c = '\t' with
  | [] => true
  | c :: cs =>
    if endsWord c then c != '<' && c != '>'
    else
      let word := (c :: cs).takeWhile fun c => !endsWord c
      commandStarters.contains (String.ofList word.reverse)

/-- The closers once a word of a script is complete, given what was read with its last character
first. In a selection parentheses end patterns. -/
def closersAfterWord (closers : List Char) (read : List Char) : List Char :=
  let word := read.takeWhile fun c => !endsWord c
  match closers, String.ofList word.reverse with
  | top :: below, "esac" => if top = selectionEnd then below else closers
  | top :: below, "case" =>
    if (top = ')' || top = selectionEnd) && commandCanBegin (read.drop word.length) then
      selectionEnd :: top :: below
    else closers
  | _, _ => closers

/-- The closers after a character inside an expansion. -/
def closersAfter (isDouble : Bool) (closers : List Char) (c : Char) : List Char :=
  match closers with
  | [] => []
  | top :: below =>
    if c = top then below
    else if top = '\'' then closers
    else if c = '\x60' then '\x60' :: closers
    else if c = '"' then '"' :: closers
    else if c = '\'' && top != '"' && !(isDouble && top = '\x7d') then '\'' :: closers
    else if c = '(' && (top = ')' || top = selectionEnd) then ')' :: closers
    else closers

/-- The marks of the documents that a line of parts announces: after the operator `<<` a word, which
is fixed if it has quotes, and tabs go if a minus follows the operator. -/
def documentMarks : List Part → List (List Char × Bool × Bool)
  | .plain '<' :: .plain '<' :: rest =>
    let tabs := rest.head? = some (.plain '-')
    let rest' := (if tabs then rest.tail else rest).dropWhile
      fun p => p = .plain ' ' || p = .plain '\t'
    let word := rest'.takeWhile fun p => match p with
      | .plain c => !endsWord c
      | _ => true
    let mark := word.filterMap fun p => match p with
      | .plain c | .quoted c => some c
      | _ => none
    let fixed := word.any fun p => match p with
      | .quoted _ | .quotes => true
      | _ => false
    if word.isEmpty then documentMarks rest else (mark, tabs, fixed) :: documentMarks rest
  | _ :: rest => documentMarks rest
  | [] => []

/-- The mode at the start of a line after a line with its last part first. -/
def Mode.afterLine (line : List Part) : Mode :=
  match documentMarks line.reverse with
  | [] => .plain true
  | (mark, tabs, fixed) :: more => .document mark tabs fixed more [] []

/-- The lines of a document without tabs at their start, if they are to go. -/
def documentLine (tabs : Bool) (line : List Char) : List Char :=
  if tabs then line.dropWhile (· = '\t') else line

def Mode.expands : Mode → Bool
  | .plain _ | .double => true
  | _ => false

def Mode.literal (mode : Mode) (c : Char) : Part :=
  if mode = .double then .quoted c else .plain c

/-- Reads on in a text. The parts of the line under way are given, the last first. -/
def scanParts (place : Place) (mode : Mode) (line : List Part) : List Char → List Part
  | [] =>
    match mode with
    | .plain _ | .comment => []
    | .single => [.unclosed .quote 0]
    | .double => if place = .script || place = .word then [.unclosed .quote 0] else []
    | .name isDouble read => [.expansion (.parameter read.reverse) isDouble]
    | .capture _ kind closers read => [.unclosed (kind.opening closers) (read.count '\n')]
    | .document mark tabs fixed _ last read =>
      let last := documentLine tabs last.reverse
      [.document (read.reverse ++ if last = mark then [] else last) fixed]
  | c :: cs =>
    let isDouble := mode = .double
    if mode.expands && c = '\x60' then
      scanParts place (.capture isDouble .backquote ['\x60'] []) line cs
    else if mode.expands && c = '$' then
      match cs with
      | '\x7b' :: ds => scanParts place (.capture isDouble .braces ['\x7d'] []) line ds
      | '(' :: '(' :: ds => scanParts place (.capture isDouble .arithmetic [')'] []) line ds
      | '(' :: ds => scanParts place (.capture isDouble .command [')'] []) line ds
      | [] => [mode.literal c]
      | d :: ds =>
        if isSpecialParameter d then
          let p := Part.expansion (.parameter [d]) isDouble
          p :: scanParts place (.after isDouble) (p :: line) ds
        else if isNameChar d then scanParts place (.name isDouble []) line (d :: ds)
        else
          mode.literal c :: scanParts place (.after isDouble) (mode.literal c :: line) (d :: ds)
    else
      match mode with
      | .comment =>
        if c = '\n' then .plain c :: scanParts place (.afterLine line) [] cs
        else scanParts place .comment line cs
      | .single =>
        if c = '\'' then .quotes :: scanParts place (.plain false) (.quotes :: line) cs
        else .quoted c :: scanParts place .single (.quoted c :: line) cs
      | .double =>
        if c = '"' && place != .document then
          .quotes :: scanParts place (.plain false) (.quotes :: line) cs
        else if c = '\\' then
          match cs with
          | [] => [if place = .document then .quoted c else .unclosed .quote 0]
          | d :: ds =>
            if d = '\n' then .joint :: scanParts place .double (.joint :: line) ds
            else if isEscapable place d then
              .quoted d :: scanParts place .double (.quoted d :: line) ds
            else
              .quoted c :: .quoted d ::
                scanParts place .double (.quoted d :: .quoted c :: line) ds
        else .quoted c :: scanParts place .double (.quoted c :: line) cs
      | .plain atStart =>
        if c = '\'' then .quotes :: scanParts place .single (.quotes :: line) cs
        else if c = '"' then .quotes :: scanParts place .double (.quotes :: line) cs
        else if c = '#' && atStart && place = .script then scanParts place .comment line cs
        else if c = '\n' && place = .script then
          .plain c :: scanParts place (.afterLine line) [] cs
        else if c = '\\' then
          match cs with
          | [] => [.plain c]
          | d :: ds =>
            if d = '\n' then .joint :: scanParts place (.plain atStart) (.joint :: line) ds
            else .quoted d :: scanParts place (.plain false) (.quoted d :: line) ds
        else .plain c :: scanParts place (.plain (endsWord c)) (.plain c :: line) cs
      | .name isDouble read =>
        if (cs.head?.map isNameChar).getD false then
          scanParts place (.name isDouble (c :: read)) line cs
        else
          let p := Part.expansion (.parameter (c :: read).reverse) isDouble
          p :: scanParts place (.after isDouble) (p :: line) cs
      | .capture isDouble kind closers read =>
        let closers := if endsWord c then closersAfterWord closers read else closers
        let top := closers.headD ')'
        let opens := c = '$' && (cs.head? = some '\x7b' || cs.head? = some '(')
        if top != '\'' && (c = '\\' || opens) then
          match cs with
          | [] => [.unclosed (kind.opening closers) (read.count '\n')]
          | d :: ds =>
            let closers :=
              if c = '\\' then closers
              else if d = '(' then ')' :: closers
              else '\x7d' :: closers
            scanParts place (.capture isDouble kind closers (d :: c :: read)) line ds
        else if kind = .arithmetic && closers = [')'] && c = ')' then
          match cs with
          | [] => [.unclosed (kind.opening closers) (read.count '\n')]
          | d :: ds =>
            if d = ')' then
              let p := Part.expansion (.arithmetic read.reverse) isDouble
              p :: scanParts place (.after isDouble) (p :: line) ds
            else scanParts place (.capture isDouble kind closers (c :: read)) line (d :: ds)
        else
          match closersAfter isDouble closers c with
          | [] =>
            let p := Part.expansion (kind.expansion isDouble read.reverse) isDouble
            p :: scanParts place (.after isDouble) (p :: line) cs
          | closers => scanParts place (.capture isDouble kind closers (c :: read)) line cs
      | .document mark tabs fixed more last read =>
        if c != '\n' then scanParts place (.document mark tabs fixed more (c :: last) read) line cs
        else
          let whole := documentLine tabs last.reverse
          if whole != mark then
            let read := '\n' :: (whole.reverse ++ read)
            scanParts place (.document mark tabs fixed more [] read) line cs
          else
            let next := match more with
              | [] => Mode.plain true
              | (mark, tabs, fixed) :: more => .document mark tabs fixed more [] []
            .document read.reverse fixed :: scanParts place next [] cs

def parts (place : Place) (cs : List Char) : List Part :=
  let start := match place with
    | .script => Mode.plain true
    | .word => .plain false
    | .quotedWord | .document => .double
  scanParts place start [] cs

end NativeCode.Shell
