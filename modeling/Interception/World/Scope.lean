import Interception.World

namespace Interception.World

variable {H : Host}

def enter (w : World H) (s : ScopeId) : Except ScopeError Unit × World H :=
  let scope := w.scope s
  match scope.displaced with
  | some _ => (.error .alreadyActive, w)
  | none =>
    let displaced := w.slot scope.slot
    let w := (w.install scope.slot scope.hook).log .trace (.scopeEntered displaced)
    (.ok (), w.setScope s { scope with displaced })

def exit (w : World H) (s : ScopeId) : Except ScopeError Unit × World H :=
  let scope := w.scope s
  match scope.displaced with
  | none => (.error .notActive, w)
  | some displaced =>
    let w := w.setScope s { scope with displaced := none }
    (.ok (), (w.log .trace (.scopeExited displaced)).install scope.slot displaced)

def drop (w : World H) (s : ScopeId) : World H :=
  if (w.scope s).displaced.isSome then ((w.log .warn .scopeDropped).exit s).2 else w

def openGuard (w : World H) (s : SlotId) (h : Hook) : World H :=
  (w.install s h).log .trace (.scopeOpened (w.slot s))

def closeGuard (w : World H) (s : SlotId) (displaced : Hook) : World H :=
  (w.log .trace (.scopeClosed displaced)).install s displaced

@[simp] theorem slot_openGuard_self (w : World H) (s : SlotId) (h : Hook) :
    (w.openGuard s h).slot s = h := by simp [openGuard]

@[simp] theorem slot_closeGuard_self (w : World H) (s : SlotId) (h : Hook) :
    (w.closeGuard s h).slot s = h := by simp [closeGuard]

end Interception.World
