import Interception.Evaluation
import Interception.Proofs.Slots

namespace Interception

/-- The job ends in this way once `n` frames have been counted. -/
inductive Computes (p : Program) (maxDepth : Nat) : Job → Nat → Ending → Prop
  | ends {job q} (hm : job.move p maxDepth = .ends q) : Computes p maxDepth job 0 q
  | becomes {job job' n q} (hm : job.move p maxDepth = .becomes job') (hn : Computes p maxDepth job' n q) :
    Computes p maxDepth job n q
  | enters {job f n q} (hm : job.move p maxDepth = .enters f) (hb : Computes p maxDepth (.body (.start f)) n q) :
    Computes p maxDepth job (n + 1) q
  | returns {job caller callee m v n q} (hm : job.move p maxDepth = .calls caller callee)
    (hc : Computes p maxDepth (.frame callee) m (.result (.ok v)))
    (hb : Computes p maxDepth (.body (caller.push v)) n q) : Computes p maxDepth job (m + n) q
  | aborts {job caller callee n q} (hm : job.move p maxDepth = .calls caller callee)
    (hc : Computes p maxDepth (.frame callee) n q) (hq : ∀ v, q ≠ .result (.ok v)) : Computes p maxDepth job n q

variable {H : Host} {β : Behaviour H} {e : EvaluatorId} {w w' : World H} {job : Job} {q : Ending} {n : Nat}
  {r : Except (Panic H) (Except EvalError Value)} {p : Program} {maxDepth : Nat} {hook : Hook}

open State

theorem Ending.lift_eq_ok_iff {v : Value} : (q.lift : Except (Panic H) _) = .ok (.ok v) ↔ q = .result (.ok v) := by
  cases q <;> simp [lift]

namespace World

def countFrames (w : World H) (e : EvaluatorId) : Nat → World H
  | 0 => w
  | n + 1 => (w.countFrame e).countFrames e n

theorem countFrames_add (w : World H) (e : EvaluatorId) (m n : Nat) :
    w.countFrames e (m + n) = (w.countFrames e m).countFrames e n := by
  induction m generalizing w with
  | zero => rw [Nat.zero_add]; rfl
  | succ m ih => rw [Nat.succ_add]; exact ih _

theorem frames_countFrames (w : World H) (e : EvaluatorId) (n : Nat) :
    ((w.countFrames e n).evaluator e).usage.frames = (w.evaluator e).usage.frames + n := by
  induction n generalizing w with
  | zero => rfl
  | succ n ih =>
    rw [countFrames, ih, evaluator_countFrame]
    show (w.evaluator e).usage.frames + 1 + n = (w.evaluator e).usage.frames + (n + 1)
    omega

theorem restores_countFrames (w : World H) (e : EvaluatorId) (n : Nat) : w.Restores e (w.countFrames e n) := by
  induction n generalizing w with
  | zero => exact ⟨rfl, rfl⟩
  | succ n ih => exact (Restores.countFrame w e).trans (ih _)

structure Equipped (w : World H) (e : EvaluatorId) (p : Program) (maxDepth : Nat) (h : Hook) : Prop where
  program : (w.evaluator e).program = p
  maxDepth : (w.evaluator e).maxDepth = maxDepth
  slot : w.slot (w.evaluator e).slot = h

theorem Equipped.move (h : w.Equipped e p maxDepth hook) (job : Job) : w.move e job = job.move p maxDepth := by
  rw [World.move, h.program, h.maxDepth]

theorem Equipped.hook_eq {h h' : HandlerId} (hw : w.Equipped e p maxDepth (.active h))
    (hs : w.slot (w.evaluator e).slot = .active h') : h' = h := Hook.active.inj (hs.symm.trans hw.slot)

theorem Equipped.of_restores (h : w.Equipped e p maxDepth hook) (hr : w.Restores e w') :
    w'.Equipped e p maxDepth hook := by
  refine ⟨(congrArg Prod.fst hr.1).trans h.program, (congrArg (fun s => s.2.2) hr.1).trans h.maxDepth, ?_⟩
  rw [hr.slot_eq, hr.2]
  exact h.slot

theorem equipped_install (w : World H) (e : EvaluatorId) (hook : Hook) :
    (w.install (w.evaluator e).slot hook).Equipped e (w.evaluator e).program (w.evaluator e).maxDepth hook :=
  ⟨rfl, rfl, slot_install_self ..⟩

end World

theorem Evaluates.computes (h : Evaluates β e w job w' r) (hw : w.Equipped e p maxDepth .null) :
    ∃ n q, Computes p maxDepth job n q ∧ r = q.lift ∧ w' = w.countFrames e n := by
  induction h with
  | ends hm => exact ⟨0, _, .ends (hw.move _ ▸ hm), rfl, rfl⟩
  | becomes hm _ ih =>
    obtain ⟨n, q, hq, rfl, rfl⟩ := ih hw
    exact ⟨n, q, .becomes (hw.move _ ▸ hm) hq, rfl, rfl⟩
  | plain hm _ _ ih =>
    obtain ⟨n, q, hq, rfl, rfl⟩ := ih (hw.of_restores (World.Restores.countFrame ..))
    exact ⟨n + 1, q, .enters (hw.move _ ▸ hm) hq, rfl, rfl⟩
  | decided _ hs => exact absurd (hw.slot.symm.trans hs) (by simp)
  | dropped _ hs => exact absurd (hw.slot.symm.trans hs) (by simp)
  | returns hm _ _ ihc ihb =>
    obtain ⟨m, q, hq, hlift, rfl⟩ := ihc hw
    obtain rfl := Ending.lift_eq_ok_iff.mp hlift.symm
    obtain ⟨n, q, hb, rfl, rfl⟩ := ihb (hw.of_restores (World.restores_countFrames ..))
    exact ⟨m + n, q, .returns (hw.move _ ▸ hm) hq hb, rfl, (World.countFrames_add ..).symm⟩
  | aborts hm _ hr ih =>
    obtain ⟨n, q, hq, rfl, rfl⟩ := ih hw
    exact ⟨n, q, .aborts (hw.move _ ▸ hm) hq fun v hv => hr v (Ending.lift_eq_ok_iff.mpr hv), rfl, rfl⟩

theorem Computes.evaluates (h : Computes p maxDepth job n q) (hw : w.Equipped e p maxDepth .null) :
    Evaluates β e w job (w.countFrames e n) q.lift := by
  induction h generalizing w with
  | ends hm => exact .ends (hw.move _ ▸ hm)
  | becomes hm _ ih => exact .becomes (hw.move _ ▸ hm) (ih hw)
  | enters hm _ ih => exact .plain (hw.move _ ▸ hm) hw.slot (ih (hw.of_restores (World.Restores.countFrame ..)))
  | returns hm _ _ ihc ihb =>
    rw [World.countFrames_add]
    exact .returns (hw.move _ ▸ hm) (ihc hw) (ihb (hw.of_restores (World.restores_countFrames ..)))
  | aborts hm _ hq ih =>
    exact .aborts (hw.move _ ▸ hm) (ih hw) fun v hv => hq v (Ending.lift_eq_ok_iff.mp hv)

theorem finishes_iff_computes (hw : w.Equipped e p maxDepth .null) :
    Finishes β (job.start w e) w' r ↔
      ∃ n q, Computes p maxDepth job n q ∧ r = q.lift ∧ w' = w.countFrames e n := by
  rw [finishes_iff_evaluates]
  constructor
  · exact fun h => h.computes hw
  · rintro ⟨n, q, hq, rfl, rfl⟩
    exact hq.evaluates hw

theorem Evaluation.world_equipped (p : Program) (maxDepth : Nat) :
    (Evaluation.world p maxDepth).Equipped Evaluation.evaluator p maxDepth .null := ⟨rfl, rfl, rfl⟩

theorem Computes.unique {n' : Nat} {q' : Ending} (h : Computes p maxDepth job n q)
    (h' : Computes p maxDepth job n' q') : n = n' ∧ q = q' := by
  have hw := Evaluation.world_equipped p maxDepth
  have hf := (h.evaluates (β := Evaluation.behaviour) hw).finishes
  have hf' := (h'.evaluates (β := Evaluation.behaviour) hw).finishes
  obtain ⟨hworld, hq⟩ := hf.unique hf'
  refine ⟨?_, Ending.lift_inj hq⟩
  have hframes := congrArg (fun v => (v.evaluator Evaluation.evaluator).usage.frames) hworld
  simp only [World.frames_countFrames] at hframes
  omega

theorem Computes.ends_iff {q' : Ending} (hm : job.move p maxDepth = .ends q') :
    Computes p maxDepth job n q ↔ q' = q ∧ n = 0 := by
  constructor
  · intro h
    obtain ⟨rfl, rfl⟩ := h.unique (.ends hm)
    exact ⟨rfl, rfl⟩
  · rintro ⟨rfl, rfl⟩
    exact .ends hm

theorem Computes.becomes_iff {job' : Job} (hm : job.move p maxDepth = .becomes job') :
    Computes p maxDepth job n q ↔ Computes p maxDepth job' n q := by
  constructor
  · intro h
    cases h with
    | becomes hm' hn =>
      cases hm.symm.trans hm'
      exact hn
    | ends hm' | enters hm' | returns hm' | aborts hm' => exact absurd (hm.symm.trans hm') (by simp)
  · exact .becomes hm

theorem Computes.calls_cases {caller : Activation} {callee : Frame} (hm : job.move p maxDepth = .calls caller callee)
    (h : Computes p maxDepth job n q) :
    (∃ k v m, n = k + m ∧ Computes p maxDepth (.frame callee) k (.result (.ok v)) ∧
      Computes p maxDepth (.body (caller.push v)) m q) ∨
    Computes p maxDepth (.frame callee) n q ∧ ∀ v, q ≠ .result (.ok v) := by
  cases h with
  | returns hm' hc hb =>
    cases hm.symm.trans hm'
    exact .inl ⟨_, _, _, rfl, hc, hb⟩
  | aborts hm' hc hq =>
    cases hm.symm.trans hm'
    exact .inr ⟨hc, hq⟩
  | ends hm' | becomes hm' | enters hm' => exact absurd (hm.symm.trans hm') (by simp)

theorem Computes.enters_iff {f : Frame} (hm : job.move p maxDepth = .enters f) :
    Computes p maxDepth job n q ↔ ∃ m, n = m + 1 ∧ Computes p maxDepth (.body (.start f)) m q := by
  constructor
  · intro h
    cases h with
    | enters hm' hb =>
      cases hm.symm.trans hm'
      exact ⟨_, rfl, hb⟩
    | ends hm' | becomes hm' | returns hm' | aborts hm' => exact absurd (hm.symm.trans hm') (by simp)
  · rintro ⟨m, rfl, hb⟩
    exact .enters hm hb

end Interception
