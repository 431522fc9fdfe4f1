import Interception.Proofs.Fixtures
import Interception.Proofs.Runs

/-!
The jobs of an evaluator: calls, frames, and bodies that are running already. A job moves on without looking
at the world, except when it enters a frame, which is first offered to the hook in the evaluator's slot.
-/

namespace Interception

variable {H : Host} {k final : Kind} {β : Behaviour H}

/-- How an evaluation ends of its own accord: with a result, or for want of room for a frame's locals. -/
inductive Ending
  | result (r : Except EvalError Value)
  | noRoom

def Ending.lift : Ending → Except (Panic H) (Except EvalError Value)
  | result r => .ok r
  | noRoom => .error .tooManyLocals

theorem Ending.lift_inj {r r' : Ending} (h : (r.lift : Except (Panic H) _) = r'.lift) : r = r' := by
  cases r <;> cases r' <;> simp_all [lift]

inductive Job
  | call (function : UInt32) (args : Array Value)
  | frame (f : Frame)
  | body (a : Activation)

inductive Move
  | ends (r : Ending)
  | becomes (job : Job)
  | enters (f : Frame)
  | calls (caller : Activation) (callee : Frame)

namespace Job

def move (p : Program) (maxDepth : Nat) : Job → Move
  | call function args =>
    match p.function? function with
    | none => .ends (.result (.error (.unknownFunction function)))
    | some code =>
      if args.size = code.params then
        match Frame.make? code args 0 with
        | some f => .becomes (.frame f)
        | none => .ends .noRoom
      else .ends (.result (.error (.arityMismatch code.name code.params args.size)))
  | frame f => if maxDepth ≤ f.depth then .ends (.result (.error (.recursionLimit maxDepth))) else .enters f
  | body a =>
    match a.step p with
    | .running a => .becomes (.body a)
    | .calling caller callee => .calls caller callee
    | .stranded => .ends .noRoom
    | .finished r => .ends (.result r)

def task (e : EvaluatorId) : Job → Task H .evaluation
  | call function args => .request (.evaluate e function args)
  | frame f => .request (.evaluateFrame e f)
  | body a => .run e a

def start (job : Job) (w : World H) (e : EvaluatorId) : State H .evaluation := ⟨w, _, .nil, job.task e⟩

theorem enters_iff {p : Program} {maxDepth : Nat} {job : Job} {f : Frame} :
    job.move p maxDepth = .enters f ↔ job = .frame f ∧ f.depth < maxDepth := by
  cases job with
  | call function args =>
    simp only [move, reduceCtorEq, false_and, iff_false]
    cases p.function? function with
    | none => simp
    | some code =>
      dsimp only
      split
      · cases Frame.make? code args 0 <;> simp
      · simp
  | frame g =>
    simp only [move]
    split
    · constructor
      · intro h
        cases h
      · rintro ⟨h, hd⟩
        cases h
        omega
    · constructor
      · intro h
        cases h
        exact ⟨rfl, by omega⟩
      · rintro ⟨h, -⟩
        cases h
        rfl
  | body a =>
    simp only [move, reduceCtorEq, false_and, iff_false]
    cases a.step p <;> simp

theorem frame_becomes {p : Program} {maxDepth : Nat} {f : Frame} {job : Job} :
    (frame f).move p maxDepth ≠ .becomes job := by
  rw [move]
  split <;> simp

theorem calls_iff {p : Program} {maxDepth : Nat} {job : Job} {caller : Activation} {callee : Frame} :
    job.move p maxDepth = .calls caller callee ↔ ∃ a, job = .body a ∧ a.step p = .calling caller callee := by
  cases job with
  | call function args =>
    simp only [move, reduceCtorEq, false_and, exists_false, iff_false]
    cases p.function? function with
    | none => simp
    | some code =>
      dsimp only
      split
      · cases Frame.make? code args 0 <;> simp
      · simp
  | frame f =>
    simp only [move, reduceCtorEq, false_and, exists_false, iff_false]
    split <;> simp
  | body a =>
    simp only [move, body.injEq, exists_eq_left']
    cases a.step p <;> simp

end Job

inductive Settled (H : Host)
  | runs (w : World H) (a : Activation)
  | ends (w : World H) (r : Except (Panic H) (Except EvalError Value))

def Settled.world : Settled H → World H
  | runs w _ | ends w _ => w

def Settled.task (e : EvaluatorId) : Settled H → Task H .evaluation
  | runs _ a => .run e a
  | ends _ r => .ofResult r

namespace World

variable {w : World H}

def move (w : World H) (e : EvaluatorId) (job : Job) : Move :=
  job.move (w.evaluator e).program (w.evaluator e).maxDepth

def offering (w : World H) (e : EvaluatorId) : World H :=
  (w.countFrame e).openGuard (w.evaluator e).slot .null

def settle (w : World H) (e : EvaluatorId) (f : Frame) : Except (Panic H) (Except HookError Decision) → Settled H
  | .ok (.ok (.replace r)) =>
    if r.applies f then
      match Activation.replace? r.code f with
      | some a => .runs (w.countReplaced e) a
      | none => .ends (w.countReplaced e) (.error .tooManyLocals)
    else .runs ((w.countGuardFailure e).log .trace (.guardFailed f.name)) (.start f)
  | .ok (.ok .fallback) => .runs w (.start f)
  | .ok (.error cause) => .ends w (.ok (.error (.hook cause)))
  | .error panic => .ends w (.error panic)

inductive Settles (w : World H) (e : EvaluatorId) (f : Frame) :
    Except (Panic H) (Except HookError Decision) → Settled H → Prop
  | panics {panic} : Settles w e f (.error panic) (.ends w (.error panic))
  | fails {cause} : Settles w e f (.ok (.error cause)) (.ends w (.ok (.error (.hook cause))))
  | falls : Settles w e f (.ok (.ok .fallback)) (.runs w (.start f))
  | replaces {r a} (hr : r.applies f) (ha : Activation.replace? r.code f = some a) :
    Settles w e f (.ok (.ok (.replace r))) (.runs (w.countReplaced e) a)
  | strands {r} (hr : r.applies f) (ha : Activation.replace? r.code f = none) :
    Settles w e f (.ok (.ok (.replace r))) (.ends (w.countReplaced e) (.error .tooManyLocals))
  | misses {r} (hr : ¬ r.applies f) : Settles w e f (.ok (.ok (.replace r)))
    (.runs ((w.countGuardFailure e).log .trace (.guardFailed f.name)) (.start f))

theorem settle_eq_iff {e : EvaluatorId} {f : Frame} {d : Except (Panic H) (Except HookError Decision)} {s : Settled H} :
    w.settle e f d = s ↔ w.Settles e f d s := by
  constructor
  · rintro rfl
    rcases d with panic | cause | r | _
    · exact .panics
    · exact .fails
    · simp only [settle]
      split
      · next hr =>
        cases ha : Activation.replace? r.code f with
        | some a => exact .replaces hr ha
        | none => exact .strands hr ha
      · next hr => exact .misses hr
    · exact .falls
  · intro h
    cases h with
    | replaces hr ha | strands hr ha => simp only [settle, if_pos hr, ha]
    | misses hr => simp only [settle, if_neg hr]
    | _ => rfl

theorem settles (w : World H) (e : EvaluatorId) (f : Frame) (d : Except (Panic H) (Except HookError Decision)) :
    w.Settles e f d (w.settle e f d) := settle_eq_iff.mp rfl

theorem settle_world (w : World H) (e : EvaluatorId) (f : Frame) (d : Except (Panic H) (Except HookError Decision)) :
    (w.settle e f d).world = w ∨ (w.settle e f d).world = w.countReplaced e ∨
      (w.settle e f d).world = (w.countGuardFailure e).log .trace (.guardFailed f.name) := by
  have hs := w.settles e f d
  generalize w.settle e f d = s at hs ⊢
  cases hs with
  | panics | fails | falls => exact .inl rfl
  | replaces | strands => exact .inr (.inl rfl)
  | misses => exact .inr (.inr rfl)

theorem evaluator_countFrame (w : World H) (e : EvaluatorId) :
    (w.countFrame e).evaluator e =
      { w.evaluator e with usage := { (w.evaluator e).usage with frames := (w.evaluator e).usage.frames + 1 } } :=
  evaluator_setUsage_self ..

@[simp] theorem evaluator_openGuard (w : World H) (s : SlotId) (h : Hook) (e : EvaluatorId) :
    (w.openGuard s h).evaluator e = w.evaluator e := evaluator_of_fixtures (fixtures_openGuard ..) e

@[simp] theorem evaluator_closeGuard (w : World H) (s : SlotId) (h : Hook) (e : EvaluatorId) :
    (w.closeGuard s h).evaluator e = w.evaluator e := evaluator_of_fixtures (fixtures_closeGuard ..) e

theorem evaluator_offering (w : World H) (e : EvaluatorId) :
    (w.offering e).evaluator e = (w.countFrame e).evaluator e := evaluator_openGuard ..

theorem evaluator_slot_offering (w : World H) (e : EvaluatorId) :
    ((w.offering e).evaluator e).slot = (w.evaluator e).slot := by
  rw [evaluator_offering, evaluator_countFrame]

@[simp] theorem slot_countFrame (w : World H) (e : EvaluatorId) (s : SlotId) :
    (w.countFrame e).slot s = w.slot s := rfl

end World

namespace State

def offer (w : World H) (e : EvaluatorId) (h : HandlerId) (f : Frame) (stack : Stack H .evaluation final) :
    State H final :=
  ⟨w, _, .cons (.restore (w.evaluator e).slot (.active h)) (.cons (.settle e f) stack),
    .request (.decide (.active h) f)⟩

def settled (e : EvaluatorId) (stack : Stack H .evaluation final) : Settled H → State H final
  | .runs w a => ⟨w, _, stack, .run e a⟩
  | .ends w r => returning w stack r

theorem settled_eq (e : EvaluatorId) (stack : Stack H .evaluation final) (s : Settled H) :
    settled e stack s = ⟨s.world, _, stack, s.task e⟩ := by
  cases s <;> rfl

theorem step_restore (w : World H) (r : Except (Panic H) (k.Result H)) (s : SlotId) (h : Hook)
    (stack : Stack H k final) :
    (returning w (.cons (.restore s h) stack) r).step β = .running (returning (w.closeGuard s h) stack r) := by
  cases r <;> rfl

theorem step_settle (w : World H) (e : EvaluatorId) (f : Frame)
    (d : Except (Panic H) (Except HookError Decision)) (stack : Stack H .evaluation final) :
    (returning w (.cons (.settle e f) stack) d).step β = .running (settled e stack (w.settle e f d)) := by
  have hs := w.settles e f d
  generalize w.settle e f d = s at hs ⊢
  cases hs with
  | replaces hr ha | strands hr ha => simp only [returning, Task.ofResult, step, deliver, if_pos hr, ha, settled]
  | misses hr => simp only [returning, Task.ofResult, step, deliver, if_neg hr, settled]
  | _ => rfl

theorem step_resume (w : World H) (e : EvaluatorId) (caller : Activation) (v : Value)
    (stack : Stack H .evaluation final) :
    (returning w (.cons (.resume e caller) stack) (.ok (.ok v))).step β =
      .running ⟨w, _, stack, (Job.body (caller.push v)).task e⟩ := rfl

theorem step_resume_of_ne (w : World H) (e : EvaluatorId) (caller : Activation)
    {r : Except (Panic H) (Except EvalError Value)} (hr : ∀ v, r ≠ .ok (.ok v))
    (stack : Stack H .evaluation final) :
    (returning w (.cons (.resume e caller) stack) r).step β = .running (returning w stack r) := by
  rcases r with panic | cause | v
  · rfl
  · rfl
  · exact absurd rfl (hr v)

def moved (w : World H) (e : EvaluatorId) (stack : Stack H .evaluation final) : Move → State H final
  | .ends r => returning w stack r.lift
  | .becomes job => ⟨w, _, stack, job.task e⟩
  | .calls caller callee => ⟨w, _, .cons (.resume e caller) stack, (Job.frame callee).task e⟩
  | .enters f =>
    match w.slot (w.evaluator e).slot with
    | .null => ⟨w.countFrame e, _, stack, (Job.body (.start f)).task e⟩
    | .active h => offer (w.offering e) e h f stack

theorem step_job (w : World H) (e : EvaluatorId) (stack : Stack H .evaluation final) (job : Job) :
    State.step β ⟨w, _, stack, job.task e⟩ = .running (moved w e stack (w.move e job)) := by
  cases job with
  | call function args =>
    simp only [Job.task, step, begin, World.move, Job.move]
    cases (w.evaluator e).program.function? function with
    | none => rfl
    | some code =>
      dsimp only
      split
      · cases Frame.make? code args 0 <;> rfl
      · rfl
  | frame f =>
    simp only [Job.task, step, begin, World.move, Job.move]
    split
    · rfl
    · simp only [moved, World.slot_countFrame]
      cases w.slot (w.evaluator e).slot with
      | null => rfl
      | active h => simp only [offer, World.offering, World.evaluator_openGuard, World.evaluator_countFrame]
  | body a =>
    simp only [Job.task, step, advance, World.move, Job.move]
    cases a.step (w.evaluator e).program <;> rfl

end State

end Interception
