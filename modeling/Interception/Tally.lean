namespace Interception

structure Tally where
  intercepted : Nat := 0
  replaced : Nat := 0
  declined : Nat := 0
  failed : Nat := 0
  deriving DecidableEq, Inhabited

inductive Tally.Event
  | intercepted | replaced | declined | failed
  deriving DecidableEq

namespace Tally

def record (t : Tally) : Event → Tally
  | .intercepted => { t with intercepted := t.intercepted + 1 }
  | .replaced => { t with replaced := t.replaced + 1 }
  | .declined => { t with declined := t.declined + 1 }
  | .failed => { t with failed := t.failed + 1 }

def replaceRate (t : Tally) : Float :=
  if t.intercepted = 0 then 0 else Float.ofNat t.replaced / Float.ofNat t.intercepted

end Tally

structure Usage where
  frames : Nat := 0
  replaced : Nat := 0
  guardFailures : Nat := 0
  deriving DecidableEq, Inhabited

end Interception
