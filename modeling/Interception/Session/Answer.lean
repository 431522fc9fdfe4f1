import Interception.Conversion
import Interception.Journal
import Interception.Tally

namespace Interception.Session

inductive Failure
  | evaluation (cause : EvalError)
  | hook (cause : HookError)
  | conversion (cause : ConvertError)
  | compilation (cause : CompileError)
  | scope (cause : ScopeError)
  | badInput
  deriving DecidableEq

def Failure.message : Failure → String
  | evaluation cause => cause.message
  | hook cause => cause.message
  | conversion cause => cause.message
  | compilation cause => cause.message
  | scope cause => cause.message
  | badInput => "bad input"

inductive Event
  | log (record : Record)
  | asked (script : String) (frame : String) (tags : List Tag) (depth : Nat) (compiler : Option String)
    (probe : Option Bool)
  | evaluated (result : Except EvalError Value)
  | compiling (script : String) (code : String)

inductive Answer
  | null
  | bool (b : Bool)
  | nat (n : Nat)
  | text (s : String)
  | value (v : Value)
  | code (c : Code)
  | codes (cs : List Code)
  | frame (f : Frame)
  | tally (t : Tally)
  | usage (u : Usage)
  | compiled (c : Code) (same : Bool)
  | replacement (r : Replacement) (holds same : Bool)
  | declined (reason : String)
  | fallback
  | cache (hits misses size : Nat) (code : Option (Bool × Bool))
  | scope (active : Bool) (current : String)
  | thread (before : String) (displaced : Option String) (after : String)

inductive StepResult
  | ok (answer : Answer) (events : List Event)
  | body (results : List StepResult) (stopped : Bool) (displaced : Option String) (events : List Event)
  | caught (results : List StepResult) (events : List Event)
  | failed (failure : Failure) (events : List Event)
  | panicked (results : Option (List StepResult)) (events : List Event)

namespace StepResult

def isFailure : StepResult → Bool
  | failed _ _ => true
  | _ => false

def isPanic : StepResult → Bool
  | panicked _ _ => true
  | _ => false

end StepResult

end Interception.Session
