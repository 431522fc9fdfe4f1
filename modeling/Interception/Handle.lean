namespace Interception

structure SlotId where
  index : Nat
  deriving DecidableEq, Inhabited, Repr

structure HandlerId where
  index : Nat
  deriving DecidableEq, Inhabited, Repr

structure ScopeId where
  index : Nat
  deriving DecidableEq, Inhabited, Repr

structure ConverterId where
  index : Nat
  deriving DecidableEq, Inhabited, Repr

structure CompilerId where
  index : Nat
  deriving DecidableEq, Inhabited, Repr

structure TallyId where
  index : Nat
  deriving DecidableEq, Inhabited, Repr

structure EvaluatorId where
  index : Nat
  deriving DecidableEq, Inhabited, Repr

def SlotId.thread : SlotId := ⟨0⟩

inductive Hook
  | null
  | active (handler : HandlerId)
  deriving DecidableEq, Inhabited, Repr

namespace Hook

def isNull (h : Hook) : Bool := h = null

def text : Hook → String
  | null => "Callback::Null"
  | active _ => "Callback::Active(#)"

end Hook

end Interception
