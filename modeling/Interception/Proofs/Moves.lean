import Interception.Proofs.Transitions
import Interception.Proofs.Unwinding

namespace Interception

variable {H : Host} {k l final : Kind} {β : Behaviour H} {w w' : World H}

namespace Stack

def guards : {k : Kind} → Stack H k final → Nat → Option (SlotId × Hook)
  | _, .nil => fun _ => none
  | _, .cons (.restore s displaced) stack => fun n =>
    if n = stack.guardCount then some (s, displaced) else stack.guards n
  | _, .cons _ stack => stack.guards

theorem guards_of_le {stack : Stack H k final} {n : Nat} (h : stack.guardCount ≤ n) : stack.guards n = none := by
  induction stack with
  | nil => rfl
  | cons p stack ih =>
    cases p with
    | restore s displaced =>
      simp only [guardCount] at h
      simp only [guards]
      rw [if_neg (by omega), ih (by omega)]
    | _ => exact ih h

theorem guards_cons {p : Pending H k l} (hp : ¬ p.IsGuard) (stack : Stack H l final) :
    (Stack.cons p stack).guards = stack.guards := by
  cases p with
  | restore s displaced => exact absurd trivial hp
  | _ => rfl

end Stack

inductive State.Traces (β : Behaviour H) (s : State H final) : List ScopeMove → State H final → Prop
  | refl : Traces β s [] s
  | step {t u : State H final} {ms ms' : List ScopeMove} (h : Traces β s ms t) (hstep : t.step β = .running u)
    (hms : t.Transition β ms' u) : Traces β s (ms ++ ms') u

theorem State.Reaches.traces {s t : State H final} (h : Reaches β s t) : ∃ ms, s.Traces β ms t := by
  refine h.induct (I := fun t => ∃ ms, s.Traces β ms t) (fun t u htu ht => ?_) ⟨[], .refl⟩
  obtain ⟨ms, ht⟩ := ht
  obtain ⟨ms', hms⟩ := transition_of_step htu
  exact ⟨_, ht.step htu hms⟩

namespace Ledger

def Tracks (l : Ledger H) (s : State H final) : Prop :=
  l.world.hooks = s.world.hooks ∧ l.guards = s.stack.guards

variable {l : Ledger H} {stack : Stack H k final}

theorem run_command (h : l.world.hooks = w.hooks) (c : Command H) :
    (l.run c.moves).world.hooks = (c.run w).2.hooks ∧ (l.run c.moves).guards = l.guards := by
  cases c with
  | install s hook =>
    refine ⟨?_, rfl⟩
    change (l.world.install s hook).hooks = (w.install s hook).hooks
    rw [World.hooks_install, World.hooks_install, h]
  | enter s => exact ⟨World.hooks_enter_congr h.symm s |>.symm, rfl⟩
  | exit s => exact ⟨World.hooks_exit_congr h.symm s |>.symm, rfl⟩
  | drop s =>
    refine ⟨?_, rfl⟩
    change (l.world.drop s).hooks = (w.drop s).hooks
    rw [World.hooks_drop, World.hooks_drop]
    exact (World.hooks_exit_congr h.symm s).symm
  | newScope s hook =>
    have hadded := congrArg (fun p => (p.1, (p.2.add { slot := s, hook }).2)) h
    exact ⟨hadded, rfl⟩
  | invalidate c code =>
    refine ⟨h.trans ?_, rfl⟩
    simp only [Command.run]
    cases w.converter c <;> rfl
  | newSlot =>
    have hslot := Command.slot_run w (c := .newSlot) trivial
    exact ⟨h.trans (Prod.ext (funext fun r => (hslot r).symm) rfl), rfl⟩
  | _ => exact ⟨h, rfl⟩

theorem run_guard {s : SlotId} {displaced : Hook} (hhooks : l.world.hooks = w.hooks)
    (hguards : l.guards = stack.guards) (hs : w.slot s = displaced) (hook : Hook) :
    (l.run [.guard stack.guardCount s hook]).world.hooks = (w.openGuard s hook).hooks ∧
      (l.run [.guard stack.guardCount s hook]).guards = (Stack.cons (.restore s displaced) stack).guards := by
  constructor
  · change (l.world.openGuard s hook).hooks = _
    rw [World.hooks_openGuard, World.hooks_openGuard, hhooks]
  · funext n
    change (if n = stack.guardCount then some (s, l.world.slot s) else l.guards n) = _
    rw [hguards, World.slot_of_hooks hhooks, hs]
    rfl

theorem run_close {s : SlotId} {displaced : Hook} (hhooks : l.world.hooks = w.hooks)
    (hguards : l.guards = (Stack.cons (.restore s displaced) stack).guards) :
    (l.run [.close stack.guardCount]).world.hooks = (w.closeGuard s displaced).hooks ∧
      (l.run [.close stack.guardCount]).guards = stack.guards := by
  have htop : l.guards stack.guardCount = some (s, displaced) := by
    rw [hguards]
    exact if_pos rfl
  have heffect : l.effect (.close stack.guardCount) =
      (l.world.closeGuard s displaced, fun n => if n = stack.guardCount then none else l.guards n) := by
    simp [effect, htop]
  constructor
  · change (l.effect (.close stack.guardCount)).1.hooks = _
    rw [heffect, World.hooks_closeGuard, World.hooks_closeGuard, hhooks]
  · change (l.effect (.close stack.guardCount)).2 = _
    rw [heffect]
    funext n
    by_cases hn : n = stack.guardCount
    · simp only [hn, if_true]
      exact (Stack.guards_of_le (Nat.le_refl _)).symm
    · simp only [if_neg hn, hguards]
      exact if_neg hn

theorem Tracks.transition {s t : State H final} {ms : List ScopeMove} (h : l.Tracks s) (hst : s.Transition β ms t) :
    (l.run ms).Tracks t := by
  obtain ⟨hhooks, hguards⟩ := h
  cases hst with
  | turn hw _ => exact ⟨hhooks.trans hw.symm, hguards⟩
  | push hw hp _ => exact ⟨hhooks.trans hw.symm, hguards.trans (Stack.guards_cons hp.not_isGuard _).symm⟩
  | pop hw hp _ => exact ⟨hhooks.trans hw.symm, hguards.trans (Stack.guards_cons hp _)⟩
  | command =>
    obtain ⟨hrun, hsame⟩ := run_command hhooks _
    exact ⟨hrun, hsame.trans hguards⟩
  | @offer w e f h stack hs =>
    obtain ⟨hopened, hnumbered⟩ := run_guard (w := w.countFrame e) hhooks hguards hs .null
    refine ⟨hopened, hnumbered.trans ?_⟩
    rw [State.offer, World.evaluator_slot_offering]
    rfl
  | within => exact run_guard hhooks hguards rfl _
  | close => exact run_close hhooks hguards
  | _ => exact ⟨hhooks, hguards⟩

theorem Tracks.traces {s t : State H final} {ms : List ScopeMove} (h : l.Tracks s) (hst : s.Traces β ms t) :
    (l.run ms).Tracks t := by
  induction hst with
  | refl => exact h
  | step _ _ hms ih =>
    rw [run_append]
    exact ih.transition hms

end Ledger

open Ledger

theorem innermost_hook_reached {q : Request H final} {t : State H final} {ms : List ScopeMove}
    (ht : (State.ofRequest w q).Traces β ms t) (hn : (Ledger.start w).Nested ms) (s : SlotId) :
    t.world.slot s = (((Ledger.start w).run ms).innermost? s).elim (w.slot s) Opening.hook := by
  have htracks := Tracks.traces (l := Ledger.start w) ⟨rfl, rfl⟩ ht
  have hsound := (Sound.start w).run hn
  exact (World.slot_of_hooks htracks.1 s).symm.trans (hsound.current s)

end Interception
