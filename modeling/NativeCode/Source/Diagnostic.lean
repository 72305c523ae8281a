import NativeCode.Source.Registry

/-!
# Diagnostics

A diagnostic is a severity, a message and a place. Its printed form starts with the path, the line
and the column as far as they are known.
-/

namespace NativeCode.Source

inductive Severity where
  | note
  | warning
  | error
  deriving DecidableEq, Inhabited

def Severity.name : Severity → String
  | note => "note"
  | warning => "warning"
  | error => "error"

structure Diagnostic where
  severity : Severity
  message : String
  loc : Loc := {}
  deriving Inhabited

namespace Diagnostic

def position (l : Loc) : String :=
  if l.column = 0 then toString l.line else s!"{l.line}:{l.column}"

/-- What is printed in front of the severity: path, line and column as far as they are known. -/
def location (path : String) (l : Loc) : String :=
  match path.isEmpty, l.hasLine with
  | true, false => ""
  | true, true => position l ++ ": "
  | false, false => path ++ ": "
  | false, true => path ++ ":" ++ position l ++ ": "

/-- The printed diagnostic of a file with the given path, empty when unknown. -/
def render (d : Diagnostic) (path : String := "") : String :=
  location path d.loc ++ d.severity.name ++ ": " ++ d.message ++ "\n"

/-- The printed diagnostic with its path taken from a registry. -/
def renderIn (d : Diagnostic) (r : Registry) : String := d.render (r.path d.loc.file)

end Diagnostic

end NativeCode.Source
