import Interception.Value

namespace Interception

inductive CompileError
  | unsupported (reason : String)
  | broken (reason : String)
  deriving DecidableEq

def CompileError.message : CompileError → String
  | unsupported reason => "Unsupported by backend: " ++ reason
  | broken reason => "Backend error: " ++ reason

inductive ConvertError
  | compilation (cause : CompileError)
  | internal (reason : String)
  deriving DecidableEq

def ConvertError.message : ConvertError → String
  | compilation cause => "Compilation failed: " ++ cause.message
  | internal reason => "Converter error: " ++ reason

inductive HookError
  | conversion (cause : ConvertError)
  deriving DecidableEq

def HookError.message : HookError → String
  | conversion cause => "Frame conversion failed: " ++ cause.message

inductive ScopeError
  | alreadyActive
  | notActive
  deriving DecidableEq

def ScopeError.message : ScopeError → String
  | alreadyActive => "Scope is already active; open a new scope for each nesting level"
  | notActive => "Scope is not active"

inductive EvalError
  | stackUnderflow (offset : Nat)
  | invalidOpcode (byte : UInt8)
  | truncatedOperand (offset : Nat)
  | invalidJump (target : Int)
  | invalidLocal (slot : UInt16)
  | typeMismatch (operation : String) (left right : Tag)
  | unknownFunction (index : UInt32)
  | arityMismatch (name : String) (expected got : Nat)
  | recursionLimit (limit : Nat)
  | missingReturn (name : String)
  | hook (cause : HookError)
  deriving DecidableEq

namespace EvalError

def hexByte (b : UInt8) : String :=
  let digit (n : Nat) : Char := Char.ofNat (if n < 10 then '0'.toNat + n else 'A'.toNat + (n - 10))
  String.ofList [digit (b.toNat / 16), digit (b.toNat % 16)]

def message : EvalError → String
  | stackUnderflow offset => "Operand stack underflow at offset " ++ toString offset
  | invalidOpcode byte => "Invalid opcode 0x" ++ hexByte byte
  | truncatedOperand offset => "Truncated operand at offset " ++ toString offset
  | invalidJump target => "Jump target " ++ toString target ++ " out of bounds"
  | invalidLocal slot => "Local slot " ++ toString slot.toNat ++ " out of range"
  | typeMismatch operation left right =>
    "Type mismatch: cannot apply " ++ operation ++ " to " ++ left.name ++ " and " ++ right.name
  | unknownFunction index => "Unknown function index " ++ toString index.toNat
  | arityMismatch name expected got =>
    "Function '" ++ name ++ "' expects " ++ toString expected ++ " arguments, got " ++ toString got
  | recursionLimit limit => "Maximum call depth (" ++ toString limit ++ ") exceeded"
  | missingReturn name => "Function '" ++ name ++ "' ended without returning"
  | hook cause => cause.message

end EvalError

end Interception
