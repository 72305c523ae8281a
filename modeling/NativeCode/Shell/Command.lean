import NativeCode.Shell.Token

/-!
# Shell commands

Commands as they are read from shell text, their words still to be expanded.
-/

namespace NativeCode.Shell

inductive Redirection where
  /-- Read a file. -/
  | read
  /-- Write a file from its start, even if it must be kept. -/
  | write (force : Bool)
  /-- Write a file from its end. -/
  | append
  /-- Read and write a file. -/
  | update
  /-- Lead to where another descriptor leads. -/
  | copy
  /-- Read lines of the script, which are free of expansions or not. -/
  | document (text : List Char) (fixed : Bool)
  deriving DecidableEq, Inhabited

structure Redirect where
  fd : Nat
  kind : Redirection
  target : List Part := []
  deriving DecidableEq, Inhabited

/-- A command. Where a line is given, complaints about the command name it. -/
inductive Command where
  /-- The command that does nothing. -/
  | nothing
  | simple (line : Nat) (assignments : List (String × List Part)) (words : List (List Part))
    (redirects : List Redirect)
  /-- A command with redirections of its own. -/
  | redirected (line : Nat) (c : Command) (redirects : List Redirect)
  /-- A command whose output is the input of another. -/
  | pipe (c d : Command)
  /-- A command whose success is a failure. -/
  | negated (c : Command)
  | sequence (c d : Command)
  /-- The second command runs if the first succeeds. -/
  | both (c d : Command)
  /-- The second command runs if the first fails. -/
  | either (c d : Command)
  /-- A command that is not waited for. -/
  | background (c : Command)
  /-- A command that leaves the shell as it is. -/
  | subshell (line : Nat) (c : Command) (redirects : List Redirect)
  | choice (test yes no : Command)
  /-- A loop while a test succeeds, or until it does. -/
  | loop (isUntil : Bool) (test body : Command)
  /-- A loop over the values of words, or over the parameters. -/
  | each (line : Nat) (name : String) (words : Option (List (List Part))) (body : Command)
  /-- The first of the arms of which a pattern matches. -/
  | select (line : Nat) (subject : List Part) (arms : Command)
  /-- An arm with its patterns, before further arms. -/
  | arm (patterns : List (List Part)) (body rest : Command)
  | define (name : String) (body : Command)
  deriving DecidableEq, Inhabited

end NativeCode.Shell
