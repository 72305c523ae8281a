import NativeCode.Text.Bytes
import NativeCode.Text.Numeral

/-!
# Backslash escapes

A backslash with a letter stands for a control character, with up to three octal digits for the byte
of that value, and before anything else for itself. In an argument the digits can follow a zero, and
the letter `c` ends all output; in a format neither holds.
-/

namespace NativeCode.Shell.Format

inductive Place where
  | format
  | argument
  deriving DecidableEq, Inhabited

inductive Element where
  /-- A character as it is written. -/
  | plain (c : Char)
  /-- The byte that an escape stands for. -/
  | escaped (b : UInt8)
  /-- The end of all output. -/
  | stop
  deriving DecidableEq, Inhabited

/-- The character that a letter after a backslash stands for. -/
def escaped? : Char → Option Char
  | '\\' => some '\\'
  | 'a' => some '\x07'
  | 'b' => some '\x08'
  | 'e' => some '\x1b'
  | 'f' => some '\x0c'
  | 'n' => some '\n'
  | 'r' => some '\r'
  | 't' => some '\t'
  | 'v' => some '\x0b'
  | _ => none

inductive Progress where
  | none
  | backslash
  /-- After digits of a value, with a number of digits that can follow. -/
  | octal (value more : Nat)
  deriving DecidableEq, Inhabited

def backslash : Element := .escaped '\\'.toUInt8

def elementsFrom (place : Place) : Progress → List Char → List Element
  | .none, [] => []
  | .backslash, [] => [backslash]
  | .octal value _, [] => [.escaped value.toUInt8]
  | .none, c :: cs =>
    if c = '\\' then elementsFrom place .backslash cs else .plain c :: elementsFrom place .none cs
  | .backslash, c :: cs =>
    if c = 'c' && place = .argument then [.stop]
    else if c = '0' && place = .argument then elementsFrom place (.octal 0 3) cs
    else
      match escaped? c, Text.digitBelow? 8 c with
      | some e, _ => .escaped e.toUInt8 :: elementsFrom place .none cs
      | none, some d => elementsFrom place (.octal d 2) cs
      | none, none => backslash :: .plain c :: elementsFrom place .none cs
  | .octal value more, c :: cs =>
    match more, Text.digitBelow? 8 c with
    | more + 1, some d => elementsFrom place (.octal (value * 8 + d) more) cs
    | _, _ =>
      .escaped value.toUInt8 ::
        if c = '\\' then elementsFrom place .backslash cs
        else .plain c :: elementsFrom place .none cs

def elements (place : Place) (cs : List Char) : List Element := elementsFrom place .none cs

/-- The bytes of elements, and whether output ends after them. -/
def bytes : List Element → Bytes × Bool
  | [] => ([], false)
  | .stop :: _ => ([], true)
  | .plain c :: es => ((bytes es).map (String.utf8EncodeChar c ++ ·) id)
  | .escaped b :: es => ((bytes es).map (b :: ·) id)

/-- The bytes of an argument, and whether it ends all output. -/
def unescape (cs : List Char) : Bytes × Bool := bytes (elements .argument cs)

end NativeCode.Shell.Format
