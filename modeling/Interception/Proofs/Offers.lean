import Interception.Proofs.Computes

namespace Interception

open State

variable {H : Host} {l final : Kind} {β : Behaviour H} {e : EvaluatorId} {h : HandlerId} {w w' w₁ w₂ : World H}
  {job job' : Job} {f : Frame} {Q : World H → Frame → Prop}

/-- `Q` holds of each frame that the evaluator offers the hook in the run, and of the world in which it does. -/
def Along (Q : World H → Frame → Prop) (β : Behaviour H) (e : EvaluatorId) (h : HandlerId) (s : State H final) : Prop :=
  ∀ w f stack, Reaches β s (offer w e h f stack) → Q w f

namespace Along

theorem of_reaches {s t : State H final} (hs : Along Q β e h s) (ht : Reaches β s t) : Along Q β e h t :=
  fun w f stack hw => hs w f stack (ht.trans hw)

theorem of_under {s : State H l} {rest : Stack H l final} (hs : Along Q β e h (s.under rest)) : Along Q β e h s :=
  fun w f stack hw => hs w f (stack.append rest) (hw.under rest)

theorem becomes (hs : Along Q β e h (job.start w e)) (hm : w.move e job = .becomes job') :
    Along Q β e h (job'.start w e) := by
  have hj := reaches_moved β w e .nil job
  rw [hm] at hj
  exact hs.of_reaches hj

theorem callee {caller : Activation} {callee : Frame} (hs : Along Q β e h (job.start w e))
    (hm : w.move e job = .calls caller callee) : Along Q β e h ((Job.frame callee).start w e) := by
  have hj := reaches_moved β w e .nil job
  rw [hm] at hj
  exact of_under (s := (Job.frame callee).start w e) (hs.of_reaches hj)

theorem resumed {caller : Activation} {callee : Frame} {v : Value} (hs : Along Q β e h (job.start w e))
    (hm : w.move e job = .calls caller callee) (hc : Evaluates β e w (.frame callee) w' (.ok (.ok v))) :
    Along Q β e h ((Job.body (caller.push v)).start w' e) := by
  have hj := reaches_moved β w e .nil job
  rw [hm] at hj
  exact hs.of_reaches (hj.trans ((hc.reaches _).trans (.step (step_resume ..))))

theorem offered (hs : Along Q β e h (job.start w e)) (hm : w.move e job = .enters f)
    (hslot : w.slot (w.evaluator e).slot = .active h) : Q (w.offering e) f :=
  hs _ f _ (reaches_offer hm hslot .nil)

theorem settled {d : Except (Panic H) (Except HookError Decision)} {a : Activation}
    (hs : Along Q β e h (job.start w e)) (hm : w.move e job = .enters f)
    (hslot : w.slot (w.evaluator e).slot = .active h)
    (hd : Finishes β (ofRequest (w.offering e) (.decide (.active h) f)) w₁ d)
    (ht : (w₁.closeGuard (w.evaluator e).slot (.active h)).settle e f d = .runs w₂ a) :
    Along Q β e h ((Job.body a).start w₂ e) := by
  have hj := reaches_settled hm hslot hd .nil
  rw [ht] at hj
  exact hs.of_reaches hj

end Along

end Interception
