import NativeCode.Shell.Arithmetic
import NativeCode.Shell.Pattern
import NativeCode.Shell.State

/-!
# Expansions of words

Expanding a word replaces parameters, scripts and arithmetic expressions in it by their values. What
comes from such a value outside quotes is split into fields at the separators of the variable `IFS`,
and a field that is a pattern becomes the names of the files that it matches.
-/

namespace NativeCode.Shell

/-- Where a character of an expanded word comes from. -/
inductive Origin where
  | quoted
  | literal
  /-- From the value of an expansion outside quotes. -/
  | value
  deriving DecidableEq, Inhabited

inductive Glyph where
  | char (c : Char) (origin : Origin)
  /-- The end of a field. -/
  | gap
  /-- Quotes, which make a field. -/
  | mark
  deriving DecidableEq, Inhabited

def glyphs (isQuoted : Bool) (text : String) : List Glyph :=
  text.toList.map (.char · (if isQuoted then .quoted else .value))

/-- What is done with a parameter in braces. -/
inductive Modifier where
  | plain
  | length
  /-- A word stands for a parameter without value; `orEmpty` counts empty values as none. -/
  | substitute (op : Char) (orEmpty : Bool) (word : List Char)
  /-- What a pattern matches at one of the ends goes. -/
  | trim (atEnd longest : Bool) (pattern : List Char)
  deriving DecidableEq, Inhabited

structure Braced where
  name : List Char
  modifier : Modifier := .plain
  deriving DecidableEq, Inhabited

namespace Braced

def splitName? : List Char → Option (List Char × List Char)
  | [] => none
  | c :: cs =>
    if c.isDigit then some ((c :: cs).span Char.isDigit)
    else if isNameChar c then some ((c :: cs).span isNameChar)
    else if isSpecialParameter c then some ([c], cs)
    else none

def isSubstitution (c : Char) : Bool := "-+=?".contains c

def modifier? : List Char → Option Modifier
  | [] => some .plain
  | '%' :: '%' :: p => some (.trim true true p)
  | '%' :: p => some (.trim true false p)
  | '#' :: '#' :: p => some (.trim false true p)
  | '#' :: p => some (.trim false false p)
  | ':' :: op :: w => if isSubstitution op then some (.substitute op true w) else none
  | op :: w => if isSubstitution op then some (.substitute op false w) else none

def read (text : List Char) : Option Braced := do
  match text with
  | '#' :: c :: cs =>
    match splitName? (c :: cs) with
    | some (name, []) => return { name, modifier := .length }
    | _ => return { name := ['#'], modifier := ← modifier? (c :: cs) }
  | _ =>
    let (name, rest) ← splitName? text
    return { name, modifier := ← modifier? rest }

end Braced

def State.separators (s : State) : String := (s.value? "IFS").getD " \t\n"

/-- The parameters in one text, between them the first separator. -/
def State.joined (s : State) : String :=
  String.intercalate (String.ofList (s.separators.toList.take 1)) s.parameters

def State.parameter? (s : State) (name : List Char) : Option String :=
  match name with
  | ['?'] => some (toString s.status)
  | ['#'] => some (toString s.parameters.length)
  | ['-'] => some s.options.text
  | ['$'] => some "1"
  | ['!'] => some ""
  | ['@'] | ['*'] => if s.parameters.isEmpty then none else some s.joined
  | _ =>
    if !name.all Char.isDigit then s.value? (String.ofList name)
    else
      match Text.digits? 10 name with
      | some 0 => some s.name
      | some (n + 1) => s.parameters[n]?
      | none => none

def parameterGlyphs (isQuoted : Bool) (name : List Char) : Act (List Glyph) := do
  let s ← get
  match name, isQuoted with
  | ['@'], true =>
    return (s.parameters.map (.mark :: glyphs true ·)).intersperse [.gap] |>.flatten
  | ['*'], true => return glyphs true s.joined
  | ['@'], false | ['*'], false =>
    return (s.parameters.map (glyphs false)).intersperse [.gap] |>.flatten
  | _, _ =>
    match s.parameter? name with
    | some value => return glyphs isQuoted value
    | none =>
      if s.options.needsValues then fatal s!"{String.ofList name}: parameter not set"
      return []

/-- The characters of glyphs, with the first separator between fields. -/
def State.textOf (s : State) (gs : List Glyph) : String :=
  String.ofList (gs.flatMap fun g => match g with
    | .char c _ => [c]
    | .gap => s.separators.toList.take 1
    | .mark => [])

def patternOf (gs : List Glyph) : Pattern :=
  .ofChars (gs.filterMap fun g => match g with
    | .char c origin => some (c, origin = .quoted)
    | .gap => some (' ', true)
    | .mark => none)

/-- The integer that a variable stands for in an expression. -/
def integerOf (name : String) : Act Int := do
  match (← get).value? name with
  | none => return 0
  | some text =>
    let (n, misfit) := Format.signedWord text.toList
    let rest := ((Format.leadingInteger? text.toList).map (·.rest)).getD text.toList
    if misfit = some .outOfRange || !rest.all Format.isBlank then fatal s!"Illegal number: {text}"
    return n

def evaluate (text : String) : Act Int := do
  let fail (f : Arithmetic.Fault) : Act Int :=
    fatal ("arithmetic expression: " ++ f.message ++ ": \"" ++ text ++ "\"")
  match Arithmetic.read text.toList with
  | .ok e => e.eval integerOf (fun name n => assign name (toString n)) fail
  | .error f => fail f

/-- The glyphs of a parameter with a modifier. Words inside are expanded by `inner`. -/
def bracedGlyphs (inner : Place → List Char → Act (List Glyph)) (isQuoted : Bool) (b : Braced) :
    Act (List Glyph) := do
  let name := String.ofList b.name
  let normal := parameterGlyphs isQuoted b.name
  match b.modifier with
  | .plain => normal
  | .length =>
    match (← get).parameter? b.name with
    | some value => return glyphs isQuoted (toString (Bytes.ofString value).length)
    | none =>
      if (← get).options.needsValues then fatal s!"{name}: parameter not set"
      return glyphs isQuoted "0"
  | .trim atEnd longest pattern =>
    let shown ← normal
    let value := (← get).textOf shown
    let p := patternOf (← inner .word pattern)
    let trimmed := (if atEnd then p.trimEnd else p.trimStart) longest (.ofString value)
    return glyphs isQuoted trimmed.toText
  | .substitute op orEmpty word =>
    let value := (← get).parameter? b.name
    let isSet := value.isSome && !(orEmpty && value = some "")
    let place := if isQuoted then Place.quotedWord else .word
    let replaced : Act (List Glyph) := do
      return (← inner place word).map fun g => match g with
        | .char c .literal => .char c (if isQuoted then .quoted else .value)
        | g => g
    match op with
    | '+' => if isSet then replaced else return []
    | '-' => if isSet then normal else replaced
    | '=' =>
      if isSet then normal
      else
        let gs ← inner place word
        let text := (← get).textOf gs
        if !isName b.name then fatal s!"{name}: bad variable name"
        assign name text
        return glyphs isQuoted text
    | _ =>
      if isSet then normal
      else
        let gs ← inner place word
        let text := (← get).textOf gs
        let ending := if orEmpty then " or null" else ""
        fatal (if word.isEmpty then s!"{name}: parameter not set{ending}" else s!"{name}: {text}")

/-- The glyphs of a part of a word, with words nested to a given depth. Scripts inside are run by
`insert`, which takes the line they start on and gives their output. -/
def expandPart (insert : Nat → List Char → Act String) : Nat → Part → Act (List Glyph)
  | 0, _ => return []
  | n + 1, p => do
    let inner (place : Place) (cs : List Char) : Act (List Glyph) := do
      return (← (parts place cs).mapM (expandPart insert n)).flatten
    match p with
    | .plain c => return [.char c .literal]
    | .quoted c => return [.char c .quoted]
    | .quotes => return [.mark]
    | .joint | .document _ _ | .unclosed _ _ => return []
    | .expansion (.parameter name) isQuoted => parameterGlyphs isQuoted name
    | .expansion (.command text line?) isQuoted =>
      return glyphs isQuoted (← insert (line?.getD (← get).line) text)
    | .expansion (.arithmetic text) isQuoted =>
      let gs ← inner .document text
      let value ← evaluate ((← get).textOf gs)
      return glyphs isQuoted (toString value)
    | .expansion (.braces text) isQuoted =>
      match Braced.read text with
      | some b => bracedGlyphs inner isQuoted b
      | none => fatal "Bad substitution"

/-- A field: its characters, each with a flag that says whether it is quoted. -/
abbrev Field := List (Char × Bool)

/-- The fields of glyphs. A field is under way, or not; `closed` says whether blanks have just ended
one. -/
def fieldsFrom (separators : String) (field : Option Field) (closed : Bool) :
    List Glyph → List Field
  | [] => field.toList.map List.reverse
  | .gap :: gs => field.toList.map List.reverse ++ fieldsFrom separators none false gs
  | .mark :: gs => fieldsFrom separators (some (field.getD [])) false gs
  | .char c origin :: gs =>
    if origin != .value || !separators.contains c then
      fieldsFrom separators (some ((c, origin = .quoted) :: field.getD [])) false gs
    else if c = ' ' || c = '\t' || c = '\n' then
      match field with
      | some f => f.reverse :: fieldsFrom separators none true gs
      | none => fieldsFrom separators none closed gs
    else
      match field, closed with
      | none, true => fieldsFrom separators none false gs
      | _, _ => (field.getD []).reverse :: fieldsFrom separators none false gs

def fields (separators : String) (gs : List Glyph) : List Field :=
  fieldsFrom separators none false gs

def components : Field → List Field
  | [] => [[]]
  | (c, quoted) :: cs =>
    if c = '/' then [] :: components cs
    else
      match components cs with
      | f :: fs => ((c, quoted) :: f) :: fs
      | [] => [[(c, quoted)]]

/-- The paths from a place on that components match, each after a text. -/
def matchingPaths (fs : Files) (here : Path) (start : String) : List Field → List String
  | [] => []
  | f :: rest =>
    let dotted := f.head?.map (·.1) = some '.'
    let names := if dotted then "." :: ".." :: fs.names here else fs.names here
    let found := names.filter fun name =>
      (dotted || !name.startsWith ".") && (Pattern.ofChars f).isMatch (.ofString name)
    if rest.isEmpty then found.map (start ++ ·)
    else found.flatMap fun name =>
      matchingPaths fs (here ++ [name]) (start ++ name ++ "/") rest

def Field.text (f : Field) : String := String.ofList (f.map (·.1))

/-- The names of the files that a field matches; the field itself if it is no pattern or matches
none. -/
def fileNames (s : State) (f : Field) : List String :=
  if s.options.keepsPatterns || !(Pattern.ofChars f).isProper then [f.text]
  else
    match matchingPaths s.files [] "" (components f) with
    | [] => [f.text]
    | names => names

section

variable (insert : Nat → List Char → Act String) (n : Nat)

/-- A word in which quotes around all parameters and nothing else make no field by themselves. -/
def bareParameters : List Part → List Part
  | .quotes :: .expansion (.parameter ['@']) true :: .quotes :: ps =>
    .expansion (.parameter ['@']) true :: bareParameters ps
  | p :: ps => p :: bareParameters ps
  | [] => []

/-- The glyphs of a word. A tilde alone or before a slash stands for the variable `HOME`. -/
def expandGlyphs (w : List Part) : Act (List Glyph) := do
  let all (w : List Part) : Act (List Glyph) := do
    return (← (bareParameters w).mapM (expandPart insert n)).flatten
  match w, (← get).value? "HOME" with
  | [.plain '~'], some home => return glyphs true home
  | .plain '~' :: .plain '/' :: rest, some home =>
    return glyphs true home ++ (← all (.plain '/' :: rest))
  | _, _ => all w

def expandWords : List (List Part) → Act (List String)
  | [] => return []
  | w :: ws => do
    let gs ← expandGlyphs insert n w
    let s ← get
    let found := (fields s.separators gs).flatMap (fileNames s)
    return found ++ (← expandWords ws)

def expandText (w : List Part) : Act String := do
  let gs ← expandGlyphs insert n w
  return (← get).textOf gs

def expandPattern (w : List Part) : Act Pattern := return patternOf (← expandGlyphs insert n w)

end

end NativeCode.Shell
