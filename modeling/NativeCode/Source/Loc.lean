/-!
# Source places

A place names a file by its number, a line and a column. Numbers count from one, and zero stands
for "unknown".
-/

namespace NativeCode.Source

/-- A place in a source file; a zero field is unknown. -/
structure Loc where
  file : Nat := 0
  line : Nat := 0
  column : Nat := 0
  deriving DecidableEq, Inhabited

def Loc.hasLine (l : Loc) : Bool := l.line != 0

def Loc.orElse (l fallback : Loc) : Loc := if l.hasLine then l else fallback

end NativeCode.Source
