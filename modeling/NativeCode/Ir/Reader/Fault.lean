import NativeCode.Source.Diagnostic
import NativeCode.Ir.Ty

/-!
# What can be wrong with a source text

Reading stops at the first fault. A fault says what was found; `Fault.message` is its wording, and
an error adds the place.
-/

namespace NativeCode.Ir.Reader

open NativeCode.Source (Loc Diagnostic)

inductive Fault where
  -- operands, types and block references
  | expectedOperand
  | unknownValue (token : String)
  | malformedGlobalRef (token : String)
  | malformedFloat (token : String)
  | floatUsedWith (ty : Ty)
  | malformedOperand (token : String)
  | integerUsedWith (ty : Ty)
  | literalOutOfRange (token : String) (ty : Ty)
  | unknownType (token : String)
  | expectedBlockRef (token : String)
  | expectedComma
  -- module items
  | malformedModuleName
  | malformedExternName
  | unexpectedKeyword (token : String)
  | malformedGlobalName (token : String)
  | expectedColonAfterGlobal
  | initializerNotInteger
  | initializerOutOfRange (value : Word) (ty : Ty)
  | initializerMissing (name : String)
  -- function headers
  | malformedFunctionName (token : String)
  | expectedParameterList
  | malformedParameterName (token : String)
  | expectedColonAfterParameter
  | expectedParameterEnd
  | expectedBody
  | textAfterBrace
  -- bodies
  | noBlocks (function : String)
  | unterminatedFunction (function : String)
  | malformedLabel (text : String)
  | noTerminator (block : Nat)
  | outsideBlock
  | afterTerminator (block : Nat)
  | resultNotNumbered
  | expectedEquals
  | resultRequired (opcode : String)
  | resultForbidden (opcode : String)
  | voidCallResult
  | expectedCallee
  | expectedArgumentList
  | expectedArgumentEnd
  | voidReturnValue
  | unknownOpcode (token : String)
  | trailingText
  deriving DecidableEq, Inhabited

def Fault.message : Fault → String
  | expectedOperand => "expected operand"
  | unknownValue token => s!"unknown value '{token}'"
  | malformedGlobalRef token => s!"malformed global reference '{token}'"
  | malformedFloat token => s!"malformed floating-point literal '{token}'"
  | floatUsedWith ty => s!"floating-point literal used with type '{ty.name}'"
  | malformedOperand token => s!"malformed operand '{token}'"
  | integerUsedWith ty => s!"integer literal used with type '{ty.name}'"
  | literalOutOfRange token ty => s!"literal {token} is out of range for type '{ty.name}'"
  | unknownType token => s!"unknown type '{token}'"
  | expectedBlockRef token => s!"expected block reference, found '{token}'"
  | expectedComma => "expected ','"
  | malformedModuleName => "malformed module name"
  | malformedExternName => "malformed extern name"
  | unexpectedKeyword token => s!"unexpected '{token}' at module level"
  | malformedGlobalName token => s!"malformed global name '{token}'"
  | expectedColonAfterGlobal => "expected ':' after global name"
  | initializerNotInteger => "global initializer must be an integer literal"
  | initializerOutOfRange value ty =>
    s!"initializer {value.toInt} is out of range for type '{ty.name}'"
  | initializerMissing name => s!"constant '{name}' requires an initializer"
  | malformedFunctionName token => s!"malformed function name '{token}'"
  | expectedParameterList => "expected '(' after function name"
  | malformedParameterName token => s!"malformed parameter name '{token}'"
  | expectedColonAfterParameter => "expected ':' after parameter name"
  | expectedParameterEnd => "expected ',' or ')' in parameter list"
  | expectedBody => "expected '\x7b' to open function body"
  | textAfterBrace => "unexpected text after '\x7b'"
  | noBlocks function => s!"function '{function}' has no blocks"
  | unterminatedFunction function => s!"unterminated function '{function}'"
  | malformedLabel text => s!"malformed block label '{text}'"
  | noTerminator block => s!"block bb{block} has no terminator"
  | outsideBlock => "instruction outside of a block"
  | afterTerminator block => s!"instruction after terminator in bb{block}"
  | resultNotNumbered => "result must be a numbered value such as %0"
  | expectedEquals => "expected '=' after result"
  | resultRequired opcode => s!"'{opcode}' requires a result"
  | resultForbidden opcode => s!"'{opcode}' does not produce a result"
  | voidCallResult => "void call cannot produce a result"
  | expectedCallee => "expected callee such as @name"
  | expectedArgumentList => "expected '(' after callee"
  | expectedArgumentEnd => "expected ',' or ')' in argument list"
  | voidReturnValue => "void function cannot return a value"
  | unknownOpcode token => s!"unknown opcode '{token}'"
  | trailingText => "unexpected trailing text"

structure Error where
  fault : Fault
  loc : Loc
  deriving DecidableEq, Inhabited

def Error.diagnostic (e : Error) : Diagnostic :=
  { severity := .error, message := e.fault.message, loc := e.loc }

end NativeCode.Ir.Reader
