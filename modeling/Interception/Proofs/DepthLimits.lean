import Interception.Proofs.Actions
import Interception.Proofs.Fetches

namespace Interception

def Frame.atDepth (f : Frame) (depth : Nat) : Frame := { f with depth }

def Activation.atDepth (a : Activation) (depth : Nat) : Activation := { a with depth }

def Progress.atDepth (depth : Nat) : Progress → Progress
  | .running a => .running (a.atDepth depth)
  | .calling caller callee => .calling (caller.atDepth depth) (callee.atDepth (depth + 1))
  | .stranded => .stranded
  | .finished r => .finished r

theorem Frame.make?_atDepth (code : Code) (args : Array Value) (depth depth' : Nat) :
    Frame.make? code args depth' = (Frame.make? code args depth).map (·.atDepth depth') := by
  rw [make?, make?]
  split <;> rfl

namespace Activation

variable {a : Activation} {p : Program}

theorem carryOut_atDepth (a : Activation) (depth : Nat) (p : Program) (next : Nat) (action : Instruction.Action) :
    (a.atDepth depth).carryOut p next action = (a.carryOut p next action).map (Progress.atDepth depth) := by
  cases action with
  | proceed operands locals => rfl
  | jump rel operands =>
    have htarget : (a.atDepth depth).jumpTarget next rel = a.jumpTarget next rel := rfl
    simp only [carryOut, htarget]
    cases a.jumpTarget next rel <;> rfl
  | call function args operands =>
    simp only [carryOut]
    cases p.function? function with
    | none => rfl
    | some code =>
      dsimp only
      split
      · rw [Frame.make?_atDepth code args.toArray (a.depth + 1) ((a.atDepth depth).depth + 1)]
        cases Frame.make? code args.toArray (a.depth + 1) <;> rfl
      · rfl
  | ret v => rfl

theorem step_atDepth (a : Activation) (depth : Nat) (p : Program) :
    (a.atDepth depth).step p = (a.step p).atDepth depth := by
  have hadvance : (a.atDepth depth).advance p = (a.advance p).map (Progress.atDepth depth) := by
    by_cases hpc : a.pc < a.code.body.size
    · cases hi : Instruction.decode a.code.body a.pc with
      | error fault => simp only [advance, atDepth, if_pos hpc, hi, Except.map]
      | ok i =>
        rw [advance_of_decode hi, advance_of_decode (a := a.atDepth depth) hi, execute_eq, execute_eq]
        simp only [atDepth]
        cases i.act a.locals a.operands with
        | ok action => exact carryOut_atDepth a depth p (a.pc + i.size) action
        | error fault => rfl
    · have hpc' : ¬ (a.atDepth depth).pc < (a.atDepth depth).code.body.size := hpc
      rw [advance, if_neg hpc', advance, if_neg hpc]
      rfl
  rw [step, hadvance, step]
  cases a.advance p <;> rfl

theorem step_ne_recursionLimit {limit : Nat} : a.step p ≠ .finished (.error (.recursionLimit limit)) := by
  intro h
  rcases step_error h with ⟨-, hc⟩ | ⟨-, fault, -, hc⟩ | ⟨i, -, hc⟩
  · cases hc
  · cases fault <;> cases hc
  · exact hc

end Activation

def Ending.limitedTo (limit : Nat) : Ending → Ending
  | .result (.error (.recursionLimit _)) => .result (.error (.recursionLimit limit))
  | q => q

theorem Ending.limitedTo_of_ne {q : Ending} (h : ∀ limit, q ≠ .result (.error (.recursionLimit limit)))
    (limit : Nat) : q.limitedTo limit = q := by
  rcases q with (cause | v) | _
  · cases cause with
    | recursionLimit k => exact absurd rfl (h k)
    | _ => rfl
  · rfl
  · rfl

theorem Ending.limitedTo_eq_ok {q : Ending} {limit : Nat} {v : Value} (h : q.limitedTo limit = .result (.ok v)) :
    q = .result (.ok v) := by
  rcases q with (cause | v) | _
  · cases cause <;> cases h
  · exact h
  · exact h

def Move.atDepth (depth limit : Nat) : Move → Move
  | .ends q => .ends (q.limitedTo limit)
  | .becomes (.body a) => .becomes (.body (a.atDepth depth))
  | .becomes job => .becomes job
  | .enters f => .enters (f.atDepth depth)
  | .calls caller callee => .calls (caller.atDepth depth) (callee.atDepth (depth + 1))

variable {p : Program} {m m' n depth : Nat} {job job' : Job} {q : Ending}

inductive Job.Moved (m m' depth : Nat) : Job → Job → Prop
  | frame {f : Frame} (hd : depth + m = f.depth + m') : Moved m m' depth (frame f) (frame (f.atDepth depth))
  | body {a : Activation} (hd : depth + m = a.depth + m') : Moved m m' depth (body a) (body (a.atDepth depth))

theorem Job.Moved.move (h : job.Moved m m' depth job') :
    job'.move p m' = (job.move p m).atDepth depth m' := by
  cases h with
  | @frame f hd =>
    have hdepth : (f.atDepth depth).depth = depth := rfl
    simp only [Job.move, hdepth]
    by_cases hlimit : m ≤ f.depth
    · rw [if_pos hlimit, if_pos (by omega)]
      rfl
    · rw [if_neg hlimit, if_neg (by omega)]
      rfl
  | @body a hd =>
    simp only [Job.move, Activation.step_atDepth]
    cases hstep : a.step p with
    | finished r =>
      have hr : ∀ limit, Ending.result r ≠ .result (.error (.recursionLimit limit)) := by
        rintro limit hr
        cases hr
        exact Activation.step_ne_recursionLimit hstep
      simp only [Progress.atDepth, Move.atDepth, Ending.limitedTo_of_ne hr]
    | _ => rfl

theorem Computes.moved (h : Computes p m job n q) (hj : job.Moved m m' depth job') :
    Computes p m' job' n (q.limitedTo m') := by
  induction h generalizing job' depth with
  | ends hm => exact .ends (hj.move.trans (congrArg _ hm))
  | becomes hm _ ih =>
    have hm' := hj.move.trans (congrArg _ hm)
    cases hj with
    | frame => exact absurd hm Job.frame_becomes
    | body hd =>
      obtain ⟨b, rfl, hb⟩ := Job.of_body_becomes hm
      have hdepth : b.depth = _ := congrArg Prod.snd hb
      exact .becomes hm' (ih (.body (hdepth ▸ hd)))
  | enters hm _ ih =>
    have hm' := hj.move.trans (congrArg _ hm)
    obtain ⟨rfl, -⟩ := Job.enters_iff.mp hm
    cases hj with
    | frame hd => exact .enters hm' (ih (.body hd))
  | @returns _ caller callee _ v _ _ hm _ _ ihc ihb =>
    have hm' := hj.move.trans (congrArg _ hm)
    obtain ⟨a, rfl, -⟩ := Job.calls_iff.mp hm
    cases hj with
    | body hd =>
      obtain ⟨hcaller, -, hcallee⟩ := Job.of_body_calls hm
      have hdepth : (caller.push v).depth = a.depth := congrArg Prod.snd hcaller
      have hbody : Job.Moved m m' depth (.body (caller.push v)) (.body ((caller.push v).atDepth depth)) :=
        .body (by omega)
      exact .returns hm' (ihc (.frame (by omega))) (ihb hbody)
  | aborts hm _ hq ih =>
    have hm' := hj.move.trans (congrArg _ hm)
    obtain ⟨a, rfl, -⟩ := Job.calls_iff.mp hm
    cases hj with
    | body hd =>
      obtain ⟨-, -, hcallee⟩ := Job.of_body_calls hm
      exact .aborts hm' (ih (.frame (by omega))) fun v hv => hq v (Ending.limitedTo_eq_ok hv)

theorem Job.move_raise (hm : m ≤ m') (hcut : job.move p m ≠ .ends (.result (.error (.recursionLimit m)))) :
    job.move p m' = job.move p m := by
  cases job with
  | frame f =>
    by_cases hlimit : m ≤ f.depth
    · exact absurd (if_pos hlimit) hcut
    · rw [move, if_neg (by omega), move, if_neg hlimit]
  | _ => rfl

theorem Job.limit_of_ends {limit : Nat} (hm : job.move p m = .ends (.result (.error (.recursionLimit limit)))) :
    limit = m := by
  cases job with
  | call function args =>
    rw [move] at hm
    split at hm
    · cases hm
    · split at hm
      · split at hm <;> cases hm
      · cases hm
  | frame f =>
    rw [move] at hm
    split at hm <;> cases hm
    rfl
  | body a =>
    rw [move] at hm
    split at hm <;> cases hm
    next hstep => exact absurd hstep Activation.step_ne_recursionLimit

theorem Computes.limit_eq {limit : Nat} (h : Computes p m job n (.result (.error (.recursionLimit limit)))) :
    limit = m := by
  generalize hq : Ending.result (.error (.recursionLimit limit)) = q at h
  induction h with
  | ends hm =>
    subst hq
    exact Job.limit_of_ends hm
  | becomes _ _ ih => exact ih hq
  | enters _ _ ih => exact ih hq
  | returns _ _ _ _ ih => exact ih hq
  | aborts _ _ _ ih => exact ih hq

theorem Computes.raise (h : Computes p m job n q) (hm : m ≤ m') (hq : q ≠ .result (.error (.recursionLimit m))) :
    Computes p m' job n q := by
  induction h with
  | ends hends => exact .ends ((Job.move_raise hm (by simpa [hends] using hq)).trans hends)
  | becomes hbecomes _ ih => exact .becomes ((Job.move_raise hm (by simp [hbecomes])).trans hbecomes) (ih hq)
  | enters henters _ ih => exact .enters ((Job.move_raise hm (by simp [henters])).trans henters) (ih hq)
  | returns hcalls _ _ ihc ihb =>
    exact .returns ((Job.move_raise hm (by simp [hcalls])).trans hcalls) (ihc (by simp)) (ihb hq)
  | aborts hcalls _ hv ih => exact .aborts ((Job.move_raise hm (by simp [hcalls])).trans hcalls) (ih hq) hv

theorem Computes.frames_le {n' : Nat} {q' : Ending} (h : Computes p m job n q) (hm : m ≤ m')
    (h' : Computes p m' job n' q') : n ≤ n' := by
  induction h generalizing n' q' with
  | ends => exact Nat.zero_le _
  | becomes hbecomes _ ih =>
    have hsame := (Job.move_raise hm (by simp [hbecomes])).trans hbecomes
    exact ih ((becomes_iff hsame).mp h')
  | enters henters _ ih =>
    have hsame := (Job.move_raise hm (by simp [henters])).trans henters
    obtain ⟨k, rfl, hb⟩ := (enters_iff hsame).mp h'
    exact Nat.succ_le_succ (ih hb)
  | returns hcalls hc _ _ ihb =>
    have hsame := (Job.move_raise hm (by simp [hcalls])).trans hcalls
    have hcallee := hc.raise hm (by simp)
    rcases calls_cases hsame h' with ⟨k, v, l, rfl, hc', hb'⟩ | ⟨hc', hq'⟩
    · obtain ⟨rfl, hv⟩ := hcallee.unique hc'
      cases hv
      exact Nat.add_le_add_left (ihb hb') _
    · obtain ⟨-, rfl⟩ := hcallee.unique hc'
      exact absurd rfl (hq' _)
  | aborts hcalls _ _ ih =>
    have hsame := (Job.move_raise hm (by simp [hcalls])).trans hcalls
    rcases calls_cases hsame h' with ⟨k, v, l, rfl, hc', -⟩ | ⟨hc', -⟩
    · exact Nat.le_trans (ih hc') (Nat.le_add_right _ _)
    · exact ih hc'

open State

variable {H : Host} {β : Behaviour H} {w w' : World H} {e e' : EvaluatorId}

/-- What becomes of the job in `w'`, where `e'` has a higher limit than `m`, if under `m` it has ended like this. -/
structure RaisedFrom (β : Behaviour H) (m : Nat) (w' : World H) (e' : EvaluatorId) (job : Job) (n : Nat) (q : Ending) :
    Prop where
  uncut : (∀ limit, q ≠ .result (.error (.recursionLimit limit))) →
    Finishes β (job.start w' e') (w'.countFrames e' n) q.lift
  limit_eq : ∀ {limit}, q = .result (.error (.recursionLimit limit)) → limit = m
  frames_le : ∀ {limit}, q = .result (.error (.recursionLimit limit)) → ∀ {w₂ r'},
    Finishes β (job.start w' e') w₂ r' → ∃ n', n ≤ n' ∧ w₂ = w'.countFrames e' n'

/-- The limit of `e` in `w` is `m`, and that of `e'` in `w'` is higher by `j`. -/
structure LimitOnlyCuts (β : Behaviour H) (m j : Nat) (w : World H) (e : EvaluatorId) (w' : World H)
    (e' : EvaluatorId) : Prop where
  raised : ∀ {job : Job} {w₁ r}, Finishes β (job.start w e) w₁ r → ∃ (n : Nat) (q : Ending),
    w₁ = w.countFrames e n ∧ r = q.lift ∧ RaisedFrom β m w' e' job n q
  deeper : ∀ {f : Frame} {w₁ r}, Finishes β ((Job.frame f).start w e) w₁ r → ∃ (n : Nat) (q : Ending),
    w₁ = w.countFrames e n ∧ r = q.lift ∧
      Finishes β ((Job.frame (f.atDepth (f.depth + j))).start w' e') (w'.countFrames e' n) (q.limitedTo (m + j)).lift
  back : ∀ {f : Frame} {w₁ r}, Finishes β ((Job.frame (f.atDepth (f.depth + j))).start w' e') w₁ r →
    ∃ (n : Nat) (q : Ending), w₁ = w'.countFrames e' n ∧ r = q.lift ∧
      Finishes β ((Job.frame f).start w e) (w.countFrames e n) (q.limitedTo m).lift

theorem Computes.raisedFrom {job : Job} {n : Nat} {q : Ending} (h : Computes p m job n q) (hm : m ≤ m')
    (hw' : w'.Equipped e' p m' .null) : RaisedFrom β m w' e' job n q := by
  refine ⟨fun huncut => ?_, ?_, ?_⟩
  · exact (finishes_iff_computes hw').mpr ⟨n, q, h.raise hm (huncut m), rfl, rfl⟩
  · rintro limit rfl
    exact h.limit_eq
  · rintro limit rfl w₂ r' h'
    obtain ⟨n', q', hq', -, rfl⟩ := (finishes_iff_computes hw').mp h'
    exact ⟨n', h.frames_le hm hq', rfl⟩

/-- A higher limit changes no evaluation that the lower one has not cut, and a frame comes to the same wherever as many
levels are left below the limit. -/
theorem depth_limit_only_cuts {j : Nat} (hw : w.Equipped e p m .null) (hw' : w'.Equipped e' p (m + j) .null) :
    LimitOnlyCuts β m j w e w' e' := by
  refine ⟨fun h => ?_, fun {f _ _} h => ?_, fun {f _ _} h => ?_⟩
  · obtain ⟨n, q, hq, rfl, rfl⟩ := (finishes_iff_computes hw).mp h
    exact ⟨n, q, rfl, rfl, hq.raisedFrom (Nat.le_add_right m j) hw'⟩
  · obtain ⟨n, q, hq, rfl, rfl⟩ := (finishes_iff_computes hw).mp h
    have hmoved : Computes p (m + j) (.frame (f.atDepth (f.depth + j))) n (q.limitedTo (m + j)) :=
      hq.moved (.frame (by omega))
    exact ⟨n, q, rfl, rfl, (finishes_iff_computes hw').mpr ⟨n, _, hmoved, rfl, rfl⟩⟩
  · obtain ⟨n, q, hq, rfl, rfl⟩ := (finishes_iff_computes hw').mp h
    have hback : Job.Moved (m + j) m f.depth (.frame (f.atDepth (f.depth + j))) (.frame f) :=
      .frame (f := f.atDepth (f.depth + j)) (by
        change f.depth + (m + j) = f.depth + j + m
        omega)
    exact ⟨n, q, rfl, rfl, (finishes_iff_computes hw).mpr ⟨n, _, hq.moved hback, rfl, rfl⟩⟩

open Evaluation

namespace DistantCall

theorem depth_limit_only_cuts_distant :
    Finishes behaviour ((Job.call 0 #[]).start (world program 5) evaluator)
      ((world program 5).countFrames evaluator 2) (.ok (.ok (.bool true))) ∧
    Finishes behaviour ((Job.frame (frame.atDepth 1)).start (world program 2) evaluator)
      ((world program 2).countFrames evaluator 1) (.ok (.error (.recursionLimit 2))) := by
  have huncut : ∃ w, ((Job.call 0 #[]).start (world program 2) evaluator).run behaviour 20 =
      .finished w (.ok (.ok (.bool true))) ∧ (w.evaluator evaluator).usage.frames = 2 := ⟨_, rfl, rfl⟩
  have hcut : ∃ w, ((Job.frame frame).start (world program 1) evaluator).run behaviour 20 =
      .finished w (.ok (.error (.recursionLimit 1))) ∧ (w.evaluator evaluator).usage.frames = 1 := ⟨_, rfl, rfl⟩
  obtain ⟨w, huncut, hframes⟩ := huncut
  obtain ⟨w', hcut, hframes'⟩ := hcut
  constructor
  · obtain ⟨n, q, rfl, hq, hraised⟩ :=
      (depth_limit_only_cuts (j := 3) (world_equipped program 2) (world_equipped program 5)).raised ⟨20, huncut⟩
    obtain rfl := Ending.lift_eq_ok_iff.mp hq.symm
    have hn : 0 + n = 2 := (World.frames_countFrames (world program 2) evaluator n).symm.trans hframes
    obtain rfl : n = 2 := by omega
    exact hraised.uncut nofun
  · obtain ⟨n, q, rfl, hq, hmoved⟩ :=
      (depth_limit_only_cuts (j := 1) (world_equipped program 1) (world_equipped program 2)).deeper ⟨20, hcut⟩
    obtain rfl : q = .result (.error (.recursionLimit 1)) := Ending.lift_inj hq.symm
    have hn : 0 + n = 1 := (World.frames_countFrames (world program 1) evaluator n).symm.trans hframes'
    obtain rfl : n = 1 := by omega
    exact hmoved

end DistantCall

end Interception
