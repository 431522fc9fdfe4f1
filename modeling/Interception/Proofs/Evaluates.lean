import Interception.Proofs.Changes

namespace Interception

variable {H : Host}

inductive Evaluates (β : Behaviour H) (e : EvaluatorId) :
    World H → Job → World H → Except (Panic H) (Except EvalError Value) → Prop
  | ends {w job r} (hm : w.move e job = .ends r) : Evaluates β e w job w r.lift
  | becomes {w job job' w' r} (hm : w.move e job = .becomes job') (hn : Evaluates β e w job' w' r) :
    Evaluates β e w job w' r
  | plain {w job f w' r} (hm : w.move e job = .enters f) (hs : w.slot (w.evaluator e).slot = .null)
    (hb : Evaluates β e (w.countFrame e) (.body (.start f)) w' r) : Evaluates β e w job w' r
  | decided {w job f h w₁ d w₂ a w' r} (hm : w.move e job = .enters f)
    (hs : w.slot (w.evaluator e).slot = .active h)
    (hd : State.Finishes β (.ofRequest (w.offering e) (.decide (.active h) f)) w₁ d)
    (ht : (w₁.closeGuard (w.evaluator e).slot (.active h)).settle e f d = .runs w₂ a)
    (hb : Evaluates β e w₂ (.body a) w' r) : Evaluates β e w job w' r
  | dropped {w job f h w₁ d w' r} (hm : w.move e job = .enters f)
    (hs : w.slot (w.evaluator e).slot = .active h)
    (hd : State.Finishes β (.ofRequest (w.offering e) (.decide (.active h) f)) w₁ d)
    (ht : (w₁.closeGuard (w.evaluator e).slot (.active h)).settle e f d = .ends w' r) : Evaluates β e w job w' r
  | returns {w job caller callee w₁ v w' r} (hm : w.move e job = .calls caller callee)
    (hc : Evaluates β e w (.frame callee) w₁ (.ok (.ok v)))
    (hb : Evaluates β e w₁ (.body (caller.push v)) w' r) : Evaluates β e w job w' r
  | aborts {w job caller callee w' r} (hm : w.move e job = .calls caller callee)
    (hc : Evaluates β e w (.frame callee) w' r) (hr : ∀ v, r ≠ .ok (.ok v)) : Evaluates β e w job w' r

variable {final : Kind} {β : Behaviour H} {e : EvaluatorId} {w w' : World H} {job : Job}
  {r : Except (Panic H) (Except EvalError Value)}

namespace State

theorem reaches_moved (β : Behaviour H) (w : World H) (e : EvaluatorId) (stack : Stack H .evaluation final)
    (job : Job) : Reaches β ⟨w, _, stack, job.task e⟩ (moved w e stack (w.move e job)) :=
  .step (step_job w e stack job)

theorem reaches_offer {f : Frame} {h : HandlerId} (hm : w.move e job = .enters f)
    (hs : w.slot (w.evaluator e).slot = .active h) (stack : Stack H .evaluation final) :
    Reaches β ⟨w, _, stack, job.task e⟩ (offer (w.offering e) e h f stack) := by
  have hj := reaches_moved β w e stack job
  rwa [hm, moved, hs] at hj

theorem reaches_settled {f : Frame} {h : HandlerId} {w₁ : World H}
    {d : Except (Panic H) (Except HookError Decision)}
    (hm : w.move e job = .enters f) (hs : w.slot (w.evaluator e).slot = .active h)
    (hd : Finishes β (ofRequest (w.offering e) (.decide (.active h) f)) w₁ d) (stack : Stack H .evaluation final) :
    Reaches β ⟨w, _, stack, job.task e⟩
      (settled e stack ((w₁.closeGuard (w.evaluator e).slot (.active h)).settle e f d)) := by
  have hoffer := reaches_offer (β := β) hm hs stack
  have hdecide := hd.under (.cons (.restore (w.evaluator e).slot (.active h)) (.cons (.settle e f) stack))
  simp only [offer, World.evaluator_offering, World.evaluator_countFrame] at hoffer
  exact hoffer.trans (hdecide.trans ((Reaches.step (step_restore ..)).trans (.step (step_settle ..))))

end State

open State

theorem Evaluates.reaches (h : Evaluates β e w job w' r) (stack : Stack H .evaluation final) :
    Reaches β ⟨w, _, stack, job.task e⟩ (returning w' stack r) := by
  induction h generalizing stack with
  | @ends w job r hm =>
    have hj := reaches_moved β w e stack job
    rwa [hm] at hj
  | @becomes w job _ _ _ hm _ ih =>
    have hj := reaches_moved β w e stack job
    rw [hm] at hj
    exact hj.trans (ih stack)
  | @plain w job f _ _ hm hs _ ih =>
    have hj := reaches_moved β w e stack job
    rw [hm, moved, hs] at hj
    exact hj.trans (ih stack)
  | decided hm hs hd ht _ ih =>
    have hj := reaches_settled hm hs hd stack
    rw [ht] at hj
    exact hj.trans (ih stack)
  | dropped hm hs hd ht =>
    have hj := reaches_settled hm hs hd stack
    rwa [ht] at hj
  | @returns w job caller _ _ v _ _ hm _ _ ihc ihb =>
    have hj := reaches_moved β w e stack job
    rw [hm] at hj
    exact hj.trans ((ihc _).trans ((Reaches.step (step_resume _ e caller v stack)).trans (ihb stack)))
  | @aborts w job caller _ _ _ hm _ hr ih =>
    have hj := reaches_moved β w e stack job
    rw [hm] at hj
    exact hj.trans ((ih _).trans (.step (step_resume_of_ne _ e caller hr stack)))

theorem Evaluates.finishes (h : Evaluates β e w job w' r) : Finishes β (job.start w e) w' r :=
  (h.reaches .nil).finishes finishes_returning

theorem evaluates_of_run {n : Nat} (h : (job.start w e).run β n = .finished w' r) : Evaluates β e w job w' r := by
  -- on the number of steps: what runs under the job's own stack ends in fewer of them
  induction n using Nat.strongRecOn generalizing w job w' r with
  | ind n ih =>
    obtain ⟨n, rfl⟩ : ∃ j, n = j + 1 := by
      cases n with
      | zero => exact absurd h (by simp [run])
      | succ j => exact ⟨j, rfl⟩
    rw [Job.start, run_succ (step_job w e .nil job)] at h
    cases hm : w.move e job with
    | ends q =>
      rw [hm] at h
      obtain ⟨rfl, rfl⟩ := run_returning h
      exact .ends hm
    | becomes job' =>
      rw [hm] at h
      exact .becomes hm (ih n (by omega) h)
    | enters f =>
      rw [hm, moved] at h
      cases hs : w.slot (w.evaluator e).slot with
      | null =>
        rw [hs] at h
        exact .plain hm hs (ih n (by omega) h)
      | active handler =>
        rw [hs] at h
        simp only [offer, World.evaluator_offering, World.evaluator_countFrame] at h
        obtain ⟨m, w₁, d, hmn, hd, hrest⟩ := run_under
          (s := ofRequest (w.offering e) (.decide (.active handler) f)) h
        have hmore : n - m ≠ 1 := by
          intro hnm
          rw [hnm, run_succ (step_restore ..)] at hrest
          exact absurd hrest (by simp [run])
        obtain ⟨j, hj⟩ : ∃ j, n - m = j + 2 := ⟨n - m - 2, by omega⟩
        rw [hj, run_succ (step_restore ..), run_succ (step_settle ..)] at hrest
        cases ht : (w₁.closeGuard (w.evaluator e).slot (.active handler)).settle e f d with
        | runs w₂ a =>
          rw [ht] at hrest
          exact .decided hm hs ⟨_, hd⟩ ht (ih j (by omega) hrest)
        | ends w₂ q =>
          rw [ht] at hrest
          obtain ⟨rfl, rfl⟩ := run_returning hrest
          exact .dropped hm hs ⟨_, hd⟩ ht
    | calls caller callee =>
      rw [hm, moved] at h
      obtain ⟨m, w₁, q, hmn, hc, hrest⟩ := run_under (s := (Job.frame callee).start w e) h
      have hcallee := ih (m + 1) (by omega) hc
      obtain ⟨j, hj⟩ : ∃ j, n - m = j + 1 := ⟨n - m - 1, by omega⟩
      rw [hj] at hrest
      by_cases hq : ∃ v, q = .ok (.ok v)
      · obtain ⟨v, rfl⟩ := hq
        rw [run_succ (step_resume ..)] at hrest
        exact .returns hm hcallee (ih j (by omega) hrest)
      · have hq' : ∀ v, q ≠ .ok (.ok v) := fun v hv => hq ⟨v, hv⟩
        rw [run_succ (step_resume_of_ne w₁ e caller hq' .nil)] at hrest
        obtain ⟨rfl, rfl⟩ := run_returning hrest
        exact .aborts hm hcallee hq'

theorem finishes_iff_evaluates : Finishes β (job.start w e) w' r ↔ Evaluates β e w job w' r := by
  constructor
  · rintro ⟨n, h⟩
    exact evaluates_of_run h
  · exact Evaluates.finishes

end Interception
