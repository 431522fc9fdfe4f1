import Interception.Error
import Interception.Frame

namespace Interception

inductive Guard
  | always
  | argTags (tags : List Tag)
  deriving DecidableEq, Inhabited

def Guard.holds (g : Guard) (f : Frame) : Bool :=
  match g with
  | .always => true
  | .argTags tags => f.argTags = tags

structure Replacement where
  code : Code
  guard : Guard
  deriving DecidableEq, Inhabited

def Replacement.applies (r : Replacement) (f : Frame) : Bool := r.guard.holds f

inductive Conversion
  | converted (r : Replacement)
  | declined (reason : String)
  | failed (cause : ConvertError)
  deriving DecidableEq

inductive Decision
  | replace (r : Replacement)
  | fallback
  deriving DecidableEq

def Code.refusal? (c : Code) (refused : List Opcode) : Option String :=
  if c.body.isEmpty then some ("'" ++ c.name ++ "' has an empty body")
  else
    (Bytecode.findOpcode? c.body refused).map fun (offset, op) =>
      "'" ++ c.name ++ "': unsupported instruction '" ++ op.mnemonic ++ "' at offset " ++ toString offset

end Interception
