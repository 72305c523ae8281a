/-!
# Quoting for the shell

An argument is put in double quotes. Inside them four characters mean something to the shell, and
each of these gets a backslash.
-/

namespace NativeCode.Shell

/-- The characters with a meaning inside double quotes: backslash, quote, dollar, backquote. -/
def isSpecial (c : Char) : Bool := c == '\\' || c == '"' || c == '$' || c == '\x60'

/-- A text with a backslash before each special character. -/
def escape : List Char → List Char
  | [] => []
  | c :: cs => if isSpecial c then '\\' :: c :: escape cs else c :: escape cs

def quoteChars (arg : List Char) : List Char := '"' :: escape arg ++ ['"']

def quote (arg : String) : String := String.ofList (quoteChars arg.toList)

/-- The line that runs the first argument with the others, its error stream joined to its output. -/
def commandLine (argv : List String) : String := " ".intercalate (argv.map quote) ++ " 2>&1"

end NativeCode.Shell
