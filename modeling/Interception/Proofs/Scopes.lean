import Interception.Proofs.Slots

namespace Interception

variable {H : Host} {w w' : World H} {s t : ScopeId}

theorem ScopeId.index_ne (h : s ≠ t) : s.index ≠ t.index := fun he => h (congrArg ScopeId.mk he)

namespace World

def hooks (w : World H) : (SlotId → Hook) × Table Scope := (w.slot, w.scopes)

theorem slot_of_hooks (h : w'.hooks = w.hooks) (r : SlotId) : w'.slot r = w.slot r :=
  congrArg (fun t => t.1 r) h

theorem scope_of_hooks (h : w'.hooks = w.hooks) (s : ScopeId) : w'.scope s = w.scope s :=
  congrArg (fun t => t.2.get s.index) h

@[simp] theorem hooks_log (w : World H) (level : Level) (message : Message) :
    (w.log level message).hooks = w.hooks := by
  unfold log; split <;> rfl

@[simp] theorem hooks_recordTally (w : World H) (d : Dispatch) (event : Tally.Event) :
    (w.recordTally d event).hooks = w.hooks := by
  unfold recordTally; split <;> rfl

theorem hooks_install (w : World H) (r : SlotId) (h : Hook) :
    (w.install r h).hooks = (fun t => if r = t then h else w.hooks.1 t, w.hooks.2) := by
  refine Prod.ext (funext fun t => ?_) rfl
  change (w.install r h).slot t = if r = t then h else w.slot t
  split
  · next hr => rw [hr, slot_install_self]
  · next hr => exact slot_install_ne w h hr

theorem hooks_openGuard (w : World H) (r : SlotId) (h : Hook) :
    (w.openGuard r h).hooks = (fun t => if r = t then h else w.hooks.1 t, w.hooks.2) :=
  (hooks_log ..).trans (hooks_install ..)

theorem hooks_closeGuard (w : World H) (r : SlotId) (h : Hook) :
    (w.closeGuard r h).hooks = (fun t => if r = t then h else w.hooks.1 t, w.hooks.2) := by
  rw [closeGuard, hooks_install, hooks_log]

theorem hooks_settle (w : World H) (e : EvaluatorId) (f : Frame) (d : Except (Panic H) (Except HookError Decision)) :
    (w.settle e f d).world.hooks = w.hooks := by
  rcases w.settle_world e f d with hw | hw | hw <;> rw [hw]
  · rfl
  · exact hooks_log ..

theorem scope_openGuard (w : World H) (r : SlotId) (h : Hook) (s : ScopeId) :
    (w.openGuard r h).scope s = w.scope s :=
  congrArg (fun p => p.2.get s.index) (hooks_openGuard w r h)

theorem scope_closeGuard (w : World H) (r : SlotId) (h : Hook) (s : ScopeId) :
    (w.closeGuard r h).scope s = w.scope s :=
  congrArg (fun p => p.2.get s.index) (hooks_closeGuard w r h)

theorem enter_of_active {h : Hook} (hs : (w.scope s).displaced = some h) :
    w.enter s = (.error .alreadyActive, w) := by
  rw [enter, hs]

theorem exit_of_idle (hs : (w.scope s).displaced = none) : w.exit s = (.error .notActive, w) := by
  rw [exit, hs]

theorem drop_of_idle (hs : (w.scope s).displaced = none) : w.drop s = w := by
  rw [drop, hs]
  rfl

theorem hooks_enter_of_idle (hs : (w.scope s).displaced = none) :
    (w.enter s).2.hooks = (fun t => if (w.scope s).slot = t then (w.scope s).hook else w.hooks.1 t,
      w.hooks.2.set s.index { w.scope s with displaced := w.hooks.1 (w.scope s).slot }) := by
  simp only [enter, hs]
  have hlog := hooks_log (w.install (w.scope s).slot (w.scope s).hook) .trace
    (.scopeEntered (w.slot (w.scope s).slot))
  rw [hooks_install] at hlog
  have hslots := congrArg Prod.fst hlog
  have hscopes := congrArg Prod.snd hlog
  refine Prod.ext hslots ?_
  simp only [hooks, setScope] at hscopes ⊢
  rw [hscopes]

theorem hooks_exit_of_active {h : Hook} (hs : (w.scope s).displaced = some h) :
    (w.exit s).2.hooks = (fun t => if (w.scope s).slot = t then h else w.hooks.1 t,
      w.hooks.2.set s.index { w.scope s with displaced := none }) := by
  simp only [exit, hs]
  rw [hooks_install, hooks_log]
  rfl

theorem slot_enter (hs : (w.scope s).displaced = none) (r : SlotId) :
    (w.enter s).2.slot r = if (w.scope s).slot = r then (w.scope s).hook else w.slot r :=
  congrArg (fun p => p.1 r) (hooks_enter_of_idle hs)

theorem slot_exit {h : Hook} (hs : (w.scope s).displaced = some h) (r : SlotId) :
    (w.exit s).2.slot r = if (w.scope s).slot = r then h else w.slot r :=
  congrArg (fun p => p.1 r) (hooks_exit_of_active hs)

theorem scope_enter_self (hs : (w.scope s).displaced = none) :
    (w.enter s).2.scope s = { w.scope s with displaced := w.slot (w.scope s).slot } := by
  have hscopes := congrArg (fun p => p.2.get s.index) (hooks_enter_of_idle hs)
  exact hscopes.trans (Table.get_set_self ..)

theorem scope_enter_ne (w : World H) (hst : s ≠ t) : (w.enter s).2.scope t = w.scope t := by
  cases hs : (w.scope s).displaced with
  | some h => rw [enter_of_active hs]
  | none =>
    have hscopes := congrArg (fun p => p.2.get t.index) (hooks_enter_of_idle hs)
    exact hscopes.trans (Table.get_set_ne _ _ (ScopeId.index_ne hst))

theorem scope_exit_ne (w : World H) (hst : s ≠ t) : (w.exit s).2.scope t = w.scope t := by
  cases hs : (w.scope s).displaced with
  | none => rw [exit_of_idle hs]
  | some h =>
    have hscopes := congrArg (fun p => p.2.get t.index) (hooks_exit_of_active hs)
    exact hscopes.trans (Table.get_set_ne _ _ (ScopeId.index_ne hst))

theorem scope_newScope {r : SlotId} {h : Hook} (hs : (w.scope s).displaced ≠ none) :
    ((Command.newScope r h).run w).2.scope s = w.scope s := by
  have hold : s.index ≠ w.scopes.cells.size := by
    intro hi
    apply hs
    simp only [scope, Table.get, hi]
    simp [Array.getD]
    rfl
  exact Table.get_add_old _ _ hold

theorem enter_ok_iff : (w.enter s).1 = .ok () ↔ (w.scope s).displaced = none := by
  cases hs : (w.scope s).displaced <;> simp [enter, hs]

theorem exit_ok_iff : (w.exit s).1 = .ok () ↔ (w.scope s).displaced ≠ none := by
  cases hs : (w.scope s).displaced <;> simp [exit, hs]

theorem hooks_exit_congr (h : w'.hooks = w.hooks) (s : ScopeId) : (w'.exit s).2.hooks = (w.exit s).2.hooks := by
  have hscope := scope_of_hooks h s
  cases hs : (w.scope s).displaced with
  | none => rw [exit_of_idle hs, exit_of_idle (hscope ▸ hs), h]
  | some displaced =>
    rw [hooks_exit_of_active hs, hooks_exit_of_active (hscope ▸ hs), hscope, h]

theorem hooks_enter_congr (h : w'.hooks = w.hooks) (s : ScopeId) : (w'.enter s).2.hooks = (w.enter s).2.hooks := by
  have hscope := scope_of_hooks h s
  cases hs : (w.scope s).displaced with
  | none => rw [hooks_enter_of_idle hs, hooks_enter_of_idle (hscope ▸ hs), hscope, h]
  | some displaced => rw [enter_of_active hs, enter_of_active (hscope ▸ hs), h]

theorem hooks_drop (w : World H) (s : ScopeId) : (w.drop s).hooks = (w.exit s).2.hooks := by
  cases hs : (w.scope s).displaced with
  | none => rw [drop_of_idle hs, exit_of_idle hs]
  | some displaced =>
    rw [drop, hs, Option.isSome_some, if_pos rfl]
    exact hooks_exit_congr (hooks_log ..) s

end World

end Interception
