import Interception.Proofs.Evaluates

namespace Interception

variable {H : Host} {k l final : Kind} {β : Behaviour H} {e : EvaluatorId} {w w' : World H} {job : Job}
  {r : Except (Panic H) (Except EvalError Value)}

open State

theorem State.world_settled (e : EvaluatorId) (stack : Stack H .evaluation final) (s : Settled H) :
    (settled e stack s).world = s.world := by
  cases s <;> rfl

namespace World

@[simp] theorem slot_recordTally (w : World H) (d : Dispatch) (event : Tally.Event) (s : SlotId) :
    (w.recordTally d event).slot s = w.slot s := by
  unfold recordTally; split <;> rfl

theorem slot_openGuard (w : World H) (s t : SlotId) (h : Hook) :
    (w.openGuard s h).slot t = if s = t then h else w.slot t := by
  split
  · next hst => rw [hst, slot_openGuard_self]
  · next hst => rw [openGuard, slot_log, slot_install_ne w h hst]

theorem slot_closeGuard (w : World H) (s t : SlotId) (h : Hook) :
    (w.closeGuard s h).slot t = if s = t then h else w.slot t := by
  split
  · next hst => rw [hst, slot_closeGuard_self]
  · next hst => rw [closeGuard, slot_install_ne _ h hst, slot_log]

theorem slot_settle (w : World H) (e : EvaluatorId) (f : Frame) (d : Except (Panic H) (Except HookError Decision))
    (s : SlotId) : (w.settle e f d).world.slot s = w.slot s := by
  rcases w.settle_world e f d with hw | hw | hw <;> rw [hw]
  · rfl
  · exact slot_log ..

theorem setup_setUsage (w : World H) (e : EvaluatorId) (usage : Usage) :
    ((w.setUsage e usage).evaluator e).setup = (w.evaluator e).setup := by
  rw [evaluator_setUsage_self]
  rfl

theorem setup_settle (w : World H) (e : EvaluatorId) (f : Frame)
    (d : Except (Panic H) (Except HookError Decision)) :
    ((w.settle e f d).world.evaluator e).setup = (w.evaluator e).setup := by
  rcases w.settle_world e f d with hw | hw | hw <;> rw [hw]
  · exact setup_setUsage ..
  · rw [evaluator_of_fixtures (fixtures_log ..)]
    exact setup_setUsage ..

end World

def World.Restores (e : EvaluatorId) (w w' : World H) : Prop :=
  (w'.evaluator e).setup = (w.evaluator e).setup ∧ w'.slot (w.evaluator e).slot = w.slot (w.evaluator e).slot

namespace World.Restores

variable {w'' : World H}

theorem slot_eq (h : w.Restores e w') : (w'.evaluator e).slot = (w.evaluator e).slot :=
  congrArg (fun s => s.2.1) h.1

theorem trans (h : w.Restores e w') (h' : w'.Restores e w'') : w.Restores e w'' := by
  refine ⟨h'.1.trans h.1, ?_⟩
  have hs := h'.2
  rw [h.slot_eq] at hs
  exact hs.trans h.2

theorem countFrame (w : World H) (e : EvaluatorId) : w.Restores e (w.countFrame e) := by
  refine ⟨?_, rfl⟩
  rw [evaluator_countFrame]
  rfl

end World.Restores

theorem settled_restores {f : Frame} {h : HandlerId} {w₁ : World H}
    {d : Except (Panic H) (Except HookError Decision)}
    (hm : w.move e job = .enters f) (hs : w.slot (w.evaluator e).slot = .active h)
    (hd : Finishes β (.ofRequest (w.offering e) (.decide (.active h) f)) w₁ d) :
    w.Restores e ((w₁.closeGuard (w.evaluator e).slot (.active h)).settle e f d).world := by
  constructor
  · rw [World.setup_settle, World.evaluator_closeGuard]
    have hlimit : 0 < (w.evaluator e).maxDepth := by
      have hf := (Job.enters_iff.mp hm).2
      omega
    have hkeeps := (World.covers_keepsEvaluators.offering w e).trans (World.covers_keepsEvaluators.finishes hd)
    exact (hkeeps e (World.allocated_of_maxDepth_pos hlimit)).2
  · rw [World.slot_settle, World.slot_closeGuard_self, hs]

theorem Evaluates.restores (h : Evaluates β e w job w' r) : w.Restores e w' := by
  induction h with
  | ends hm => exact ⟨rfl, rfl⟩
  | becomes hm _ ih => exact ih
  | plain hm hs _ ih => exact (World.Restores.countFrame _ e).trans ih
  | decided hm hs hd ht _ ih =>
    have hsettled := settled_restores hm hs hd
    rw [ht] at hsettled
    exact hsettled.trans ih
  | dropped hm hs hd ht =>
    have hsettled := settled_restores hm hs hd
    rwa [ht] at hsettled
  | returns hm _ _ ihc ihb => exact ihc.trans ihb
  | aborts hm _ hr ih => exact ih

end Interception
