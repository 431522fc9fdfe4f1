import Interception.Handle

namespace Interception

inductive Level
  | error | warn | info | debug | trace
  deriving DecidableEq, Inhabited, Repr

namespace Level

def rank : Level → Nat
  | error => 0
  | warn => 1
  | info => 2
  | debug => 3
  | trace => 4

def name : Level → String
  | error => "ERROR"
  | warn => "WARN"
  | info => "INFO"
  | debug => "DEBUG"
  | trace => "TRACE"

end Level

/-- The most verbose level recorded; `none` records nothing. -/
abbrev Threshold := Option Level

def Threshold.admits (t : Threshold) (l : Level) : Bool :=
  match t with
  | none => false
  | some most => l.rank ≤ most.rank

inductive Message
  | scopeOpened (displaced : Hook)
  | scopeClosed (restoring : Hook)
  | scopeEntered (displaced : Hook)
  | scopeExited (restoring : Hook)
  | scopeDropped
  | guardFailed (name : String)
  | notConverted (name reason : String)
  | compiled (name : String) (instructions bytes : Nat)
  deriving DecidableEq, Repr

namespace Message

def target : Message → String
  | scopeOpened _ | scopeClosed _ | scopeEntered _ | scopeExited _ | scopeDropped => "tracefx::hook"
  | guardFailed _ => "tracefx::interp"
  | notConverted _ _ => "tracefx::dispatch"
  | compiled _ _ _ => "tracefx::backend"

def text : Message → String
  | scopeOpened displaced => "scope opened, displaced " ++ displaced.text
  | scopeClosed restoring => "scope closed, restoring " ++ restoring.text
  | scopeEntered displaced => "scope entered, displaced " ++ displaced.text
  | scopeExited restoring => "scope exited, restoring " ++ restoring.text
  | scopeDropped => "interception scope dropped while active"
  | guardFailed name => "guard failed for '" ++ name ++ "'"
  | notConverted name reason => "!! not converted '" ++ name ++ "': " ++ reason
  | compiled name instructions bytes =>
    "eager backend: '" ++ name ++ "' (" ++ toString instructions ++ " instructions, " ++
      toString bytes ++ " bytes)"

end Message

structure Record where
  level : Level
  message : Message
  deriving DecidableEq, Repr

inductive Entry (ν : Type)
  | record (r : Record)
  | note (n : ν)

abbrev Journal (ν : Type) := Array (Entry ν)

namespace Journal

def records {ν : Type} (j : Journal ν) : List Record :=
  j.toList.filterMap fun
    | .record r => some r
    | .note _ => none

end Journal

end Interception
