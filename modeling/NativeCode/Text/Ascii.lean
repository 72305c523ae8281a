/-!
# Character classes and byte lengths

Source text is read in ASCII terms: blanks, digits and identifier characters are the ASCII ones,
every other character belongs to no class. Columns count the bytes of the UTF-8 form.
-/

namespace NativeCode.Text

def isBlank (c : Char) : Bool :=
  c == ' ' || c == '\t' || c == '\n' || c == '\x0b' || c == '\x0c' || c == '\r'

def isDigit (c : Char) : Bool := '0' ≤ c && c ≤ '9'

def isIdentStart (c : Char) : Bool :=
  ('a' ≤ c && c ≤ 'z') || ('A' ≤ c && c ≤ 'Z') || c == '_' || c == '.' || c == '$'

def isIdentRest (c : Char) : Bool := isIdentStart c || isDigit c

/-- A non-empty word that starts and goes on as an identifier. -/
def isIdentifier : List Char → Bool
  | [] => false
  | c :: cs => isIdentStart c && cs.all isIdentRest

def byteLength (cs : List Char) : Nat := cs.foldl (fun n c => n + c.utf8Size) 0

/-- The lines of a text: every newline ends one, and text after the last newline is one too. -/
def lines (cs : List Char) : List (List Char) :=
  cs.foldr (fun c rest =>
    if c = '\n' then [] :: rest
    else match rest with
      | [] => [[c]]
      | l :: ls => (c :: l) :: ls) []

def trimEnd (cs : List Char) : List Char := (cs.reverse.dropWhile isBlank).reverse

end NativeCode.Text
