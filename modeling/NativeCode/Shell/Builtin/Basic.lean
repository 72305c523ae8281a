import NativeCode.Shell.Expansion

/-!
# Arguments and output of commands

What the commands of the shell share: options and numbers among their arguments, and output that may
lead nowhere.
-/

namespace NativeCode.Shell

/-- Writes output of the command under way, which may lead nowhere. -/
def say (bs : Bytes) : Act Unit := do
  if !(← write 1 bs) then
    let name := (← get).running.getD ""
    complain s!"{name}: I/O error" 1

def sayLine (text : String) : Act Unit := say (.ofString (text ++ "\n"))

/-- The letters of options at the start of arguments, and the arguments after them. -/
def options (allowed : String) : List String → Act (List Char × List String)
  | [] => return ([], [])
  | arg :: args => do
    match arg.toList with
    | ['-', '-'] => return ([], args)
    | '-' :: c :: cs =>
      match (c :: cs).find? fun c => !allowed.contains c with
      | some c => fatal s!"Illegal option -{c}"
      | none =>
        let (more, args) ← options allowed args
        return (c :: cs ++ more, args)
    | _ => return ([], arg :: args)

def number (text : String) : Act Nat := do
  match (Text.digits? 10 text.toList).filter (· < 2147483648) with
  | some n => return n
  | none => fatal s!"Illegal number: {text}"

def finishWith (status : Nat) (_ : List String) : Act Unit := setStatus status

def singleQuoted (text : String) : String :=
  "'" ++ "'\"'\"'".intercalate (text.splitOn "'") ++ "'"

end NativeCode.Shell
