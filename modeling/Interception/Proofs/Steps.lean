import Interception.Proofs.Jobs

/-!
All that a step of the machine can come to. A step looks at no more than the task and the entry on top of the stack: it
turns the task into another one, pushes what is to wait for the next task, or hands a result to what has waited for it.
-/

namespace Interception

variable {H : Host} {final : Kind} {β : Behaviour H}

inductive World.Brings (β : Behaviour H) (w : World H) : {k : Kind} → Request H k → Script H (k.Result H) → Prop
  | decide {h d} {f : Frame} (hh : w.handler h = .custom d) : Brings β w (.decide (.active h) f) (β.decide d f)
  | convert {c b s} {f : Frame} (hc : w.converter c = .custom s) : Brings β w (.convert c b f) (β.convert s f b)
  | compile {b name s} {code : Code} (hb : w.compiler b = .custom name s) :
    Brings β w (.compile b code) (β.compile s code)
  | perform {b : H.Body} : Brings β w (.perform b) (β.perform b)

def Pending.Inert {k l : Kind} : Pending H k l → Prop
  | .restore _ _ | .rescue => False
  | _ => True

namespace State

inductive Turns (β : Behaviour H) (w : World H) : {k : Kind} → Task H k → World H → Task H k → Prop
  | ends {e job q} (hm : w.move e job = .ends q) : Turns β w (job.task e) w (.ofResult q.lift)
  | becomes {e job job'} (hm : w.move e job = .becomes job') : Turns β w (job.task e) w (job'.task e)
  | enters {e f} (hlimit : f.depth < (w.evaluator e).maxDepth) (hs : w.slot (w.evaluator e).slot = .null) :
    Turns β w (.request (.evaluateFrame e f)) (w.countFrame e) (.run e (.start f))
  | passes {f} : Turns β w (.request (.decide .null f)) w (.answer (.ok .fallback))
  | dispatches {h d f} (hh : w.handler h = .dispatch d) :
    Turns β w (.request (.decide (.active h) f)) w (.request (.dispatch d f))
  | brings {k : Kind} {q : Request H k} {p} (hp : w.Brings β q p) : Turns β w (.request q) w (.script p)
  | refuses {c b f refused reason} (hc : w.converter c = .eager refused)
    (hr : f.code.refusal? refused = some reason) :
    Turns β w (.request (.convert c b f)) w (.answer (.declined reason))
  | recalls {c b f inner cache a} (hc : w.converter c = .caching inner cache)
    (hl : (cache.lookup ⟨f.code.id, b⟩ f).1 = some a) :
    Turns β w (.request (.convert c b f))
      (w.setConverter c (.caching inner (cache.lookup ⟨f.code.id, b⟩ f).2)) (.answer a)
  | compiles {b code} (hb : w.compiler b = .eager) :
    Turns β w (.request (.compile b code))
      (w.log .debug (.compiled code.name code.instructionCount code.body.size)) (.answer (.ok code))
  | fails {b code} (hb : w.compiler b = .refusing) :
    Turns β w (.request (.compile b code)) w
      (.answer (.error (.unsupported ("stub backend cannot compile '" ++ code.name ++ "'"))))
  | returns {k : Kind} {a : k.Result H} : Turns β w (.script (.done a)) w (.answer a)
  | panics {k : Kind} {panic : Panic H} : Turns β w (.script (.panic panic) : Task H k) w (.unwind panic)
  | acts {k : Kind} {c : Command H} {next : c.Answer → Script H (k.Result H)} :
    Turns β w (.script (.act c next)) (c.run w).2 (.script (next (c.run w).1))

inductive Pushes (w : World H) : {k l : Kind} → Task H l → World H → Pending H k l → Task H k → Prop
  | calls {e job caller callee} (hm : w.move e job = .calls caller callee) :
    Pushes w (job.task e) w (.resume e caller) ((Job.frame callee).task e)
  | dispatches {d f} :
    Pushes w (.request (.dispatch d f)) (w.recordTally d .intercepted) (.classify d f)
      (.request (.convert d.converter d.compiler f))
  | guards {c b f refused} (hc : w.converter c = .eager refused) (hr : f.code.refusal? refused = none) :
    Pushes w (.request (.convert c b f)) w (.guarded f) (.request (.compile b f.code))
  | consults {c b f inner cache} (hc : w.converter c = .caching inner cache)
    (hl : (cache.lookup ⟨f.code.id, b⟩ f).1 = none) :
    Pushes w (.request (.convert c b f)) (w.setConverter c (.caching inner (cache.lookup ⟨f.code.id, b⟩ f).2))
      (.remember c ⟨f.code.id, b⟩ f) (.request (.convert inner b f))
  | opens {s h b} :
    Pushes w (.request (.within s h b)) (w.openGuard s h) (.restore s (w.slot s)) (.request (.perform b))
  | rescues {b} : Pushes w (.request (.rescue b)) w .rescue (.request (.perform b))
  | asks {k l : Kind} {q : Request H k} {next : k.Result H → Script H (l.Result H)} :
    Pushes w (.script (.ask q next)) w (.proceed next) (.request q)

inductive Pops (w : World H) :
    {k l : Kind} → Pending H k l → Except (Panic H) (k.Result H) → World H → Task H l → Prop
  | closes {k : Kind} {s displaced} {r : Except (Panic H) (k.Result H)} :
    Pops w (.restore s displaced) r (w.closeGuard s displaced) (.ofResult r)
  | resumes {e caller v} : Pops w (.resume e caller) (.ok (.ok v)) w ((Job.body (caller.push v)).task e)
  | aborts {e caller r} (hr : ∀ v, r ≠ .ok (.ok v)) : Pops w (.resume e caller) r w (.ofResult r)
  | settles {e f d} : Pops w (.settle e f) d (w.settle e f d).world ((w.settle e f d).task e)
  | replaces {d f r} :
    Pops w (.classify d f) (.ok (.converted r)) (w.recordTally d .replaced) (.answer (.ok (.replace r)))
  | declines {d f reason} :
    Pops w (.classify d f) (.ok (.declined reason))
      ((w.log d.config.declinedLevel (.notConverted f.name reason)).recordTally d .declined)
      (.answer (.ok .fallback))
  | fails {d f cause} :
    Pops w (.classify d f) (.ok (.failed cause)) (w.recordTally d .failed) (.answer (.error (.conversion cause)))
  | remembers {c key f a inner cache} (hc : w.converter c = .caching inner cache) :
    Pops w (.remember c key f) (.ok a) (w.setConverter c (.caching inner (cache.store key f a).2))
      (.answer (cache.store key f a).1)
  | strays {c key f a} (hc : ∀ inner cache, w.converter c ≠ .caching inner cache) :
    Pops w (.remember c key f) (.ok a) w (.answer a)
  | converts {f code} : Pops w (.guarded f) (.ok (.ok code)) w (.answer (.converted ⟨code, .argTags f.argTags⟩))
  | breaks {f cause} : Pops w (.guarded f) (.ok (.error cause)) w (.answer (.failed (.compilation cause)))
  | proceeds {k l : Kind} {a} {next : k.Result H → Script H (l.Result H)} :
    Pops w (.proceed next) (.ok a) w (.script (next a))
  | rescues {r} : Pops w .rescue r w (.answer r)
  | drops {k l : Kind} {p : Pending H k l} {panic : Panic H} (hp : p.Inert) :
    Pops w p (.error panic) w (.unwind panic)

inductive Step (β : Behaviour H) : State H final → State H final → Prop
  | turn {k : Kind} {w w' : World H} {stack : Stack H k final} {task task' : Task H k}
    (h : Turns β w task w' task') : Step β ⟨w, k, stack, task⟩ ⟨w', k, stack, task'⟩
  | push {k l : Kind} {w w' : World H} {stack : Stack H l final} {task : Task H l} {p : Pending H k l}
    {task' : Task H k} (h : Pushes w task w' p task') : Step β ⟨w, l, stack, task⟩ ⟨w', k, .cons p stack, task'⟩
  | offer {w : World H} {e f h} {stack : Stack H .evaluation final} (hlimit : f.depth < (w.evaluator e).maxDepth)
    (hs : w.slot (w.evaluator e).slot = .active h) :
    Step β ⟨w, _, stack, .request (.evaluateFrame e f)⟩ (offer (w.offering e) e h f stack)
  | pop {k l : Kind} {w w' : World H} {stack : Stack H l final} {p : Pending H k l}
    {r : Except (Panic H) (k.Result H)} {task' : Task H l} (h : Pops w p r w' task') :
    Step β (returning w (.cons p stack) r) ⟨w', l, stack, task'⟩

namespace Step

variable {k l : Kind} {w : World H}

theorem job (w : World H) (e : EvaluatorId) (stack : Stack H .evaluation final) (job : Job) :
    Step β ⟨w, _, stack, job.task e⟩ (moved w e stack (w.move e job)) := by
  cases hm : w.move e job with
  | ends q => exact .turn (.ends hm)
  | becomes job' => exact .turn (.becomes hm)
  | calls caller callee => exact .push (.calls hm)
  | enters f =>
    obtain ⟨rfl, hlimit⟩ := Job.enters_iff.mp hm
    simp only [moved]
    cases hs : w.slot (w.evaluator e).slot with
    | null => exact .turn (.enters hlimit hs)
    | active h => exact .offer hlimit hs

theorem begin (w : World H) (stack : Stack H k final) (q : Request H k) :
    Step β ⟨w, k, stack, .request q⟩ (begin β w q stack) := by
  cases q with
  | evaluate e function args =>
    have hstep := step_job (β := β) w e stack (.call function args)
    rw [show State.begin β w (.evaluate e function args) stack = _ from Outcome.running.inj hstep]
    exact job w e stack (.call function args)
  | evaluateFrame e f =>
    have hstep := step_job (β := β) w e stack (.frame f)
    rw [show State.begin β w (.evaluateFrame e f) stack = _ from Outcome.running.inj hstep]
    exact job w e stack (.frame f)
  | decide hook f =>
    cases hook with
    | null => exact .turn .passes
    | active h =>
      simp only [State.begin]
      cases hh : w.handler h with
      | dispatch d => exact .turn (.dispatches hh)
      | custom script => exact .turn (.brings (.decide hh))
  | dispatch d f => exact .push .dispatches
  | convert c compiler f =>
    simp only [State.begin]
    cases hc : w.converter c with
    | eager refused =>
      dsimp only
      cases hr : f.code.refusal? refused with
      | some reason => exact .turn (.refuses hc hr)
      | none => exact .push (.guards hc hr)
    | caching inner cache =>
      dsimp only
      rcases hl : cache.lookup ⟨f.code.id, compiler⟩ f with ⟨_ | answer, cache'⟩
      · obtain rfl : (cache.lookup ⟨f.code.id, compiler⟩ f).2 = cache' := congrArg Prod.snd hl
        exact .push (.consults hc (congrArg Prod.fst hl))
      · obtain rfl : (cache.lookup ⟨f.code.id, compiler⟩ f).2 = cache' := congrArg Prod.snd hl
        exact .turn (.recalls hc (congrArg Prod.fst hl))
    | custom script => exact .turn (.brings (.convert hc))
  | compile compiler code =>
    simp only [State.begin]
    cases hb : w.compiler compiler with
    | eager => exact .turn (.compiles hb)
    | refusing => exact .turn (.fails hb)
    | custom name script => exact .turn (.brings (.compile hb))
  | perform b => exact .turn (.brings .perform)
  | within s h b => exact .push .opens
  | rescue b => exact .push .rescues

theorem interpret (w : World H) (stack : Stack H k final) (p : Script H (k.Result H)) :
    Step β ⟨w, k, stack, .script p⟩ (interpret w p stack) := by
  cases p with
  | done a => exact .turn .returns
  | panic p => exact .turn .panics
  | act c next => exact .turn .acts
  | ask q next => exact .push .asks

theorem deliver (w : World H) (a : k.Result H) (p : Pending H k l) (stack : Stack H l final) :
    Step β ⟨w, k, .cons p stack, .answer a⟩ (deliver w a p stack) := by
  have hpop {w' : World H} {task' : Task H l} (h : Pops w p (.ok a) w' task') :
      Step β ⟨w, k, .cons p stack, .answer a⟩ ⟨w', l, stack, task'⟩ := .pop h
  cases p with
  | restore s displaced => exact hpop .closes
  | resume e caller =>
    simp only [State.deliver]
    rcases a with cause | v
    · exact hpop (.aborts (by simp))
    · exact hpop .resumes
  | settle e f =>
    have hstep := step_settle (β := β) w e f (.ok a) stack
    rw [settled_eq] at hstep
    rw [show State.deliver w a (.settle e f) stack = _ from Outcome.running.inj hstep]
    exact hpop .settles
  | classify d f =>
    simp only [State.deliver]
    rcases a with r | reason | cause
    · exact hpop .replaces
    · exact hpop .declines
    · exact hpop .fails
  | remember c key f =>
    simp only [State.deliver]
    cases hc : w.converter c with
    | caching inner cache => exact hpop (.remembers hc)
    | eager refused => exact hpop (.strays (by simp [hc]))
    | custom script => exact hpop (.strays (by simp [hc]))
  | guarded f =>
    simp only [State.deliver]
    rcases a with cause | code
    · exact hpop .breaks
    · exact hpop .converts
  | proceed next => exact hpop .proceeds
  | rescue => exact hpop (.rescues (r := .ok a))

theorem discard (w : World H) (panic : Panic H) (p : Pending H k l) (stack : Stack H l final) :
    Step β ⟨w, k, .cons p stack, .unwind panic⟩ (discard w panic p stack) := by
  have hpop {w' : World H} {task' : Task H l} (h : Pops w p (.error panic) w' task') :
      Step β ⟨w, k, .cons p stack, .unwind panic⟩ ⟨w', l, stack, task'⟩ := .pop h
  cases p with
  | restore s displaced => exact hpop .closes
  | rescue => exact hpop (.rescues (r := .error panic))
  | _ => exact hpop (.drops trivial)

theorem of_step {s t : State H final} (h : s.step β = .running t) : Step β s t := by
  obtain ⟨w, j, stack, task⟩ := s
  cases task with
  | request q => exact Outcome.running.inj h ▸ begin w stack q
  | script p => exact Outcome.running.inj h ▸ interpret w stack p
  | run e a => exact Outcome.running.inj (h.symm.trans (step_job w e stack (.body a))) ▸ job w e stack (.body a)
  | answer a =>
    cases stack with
    | nil => exact absurd h (by simp [State.step])
    | cons p stack => exact Outcome.running.inj h ▸ deliver w a p stack
  | unwind panic =>
    cases stack with
    | nil => exact absurd h (by simp [State.step])
    | cons p stack => exact Outcome.running.inj h ▸ discard w panic p stack

end Step

section

variable {k l : Kind} {w w' : World H}

theorem step_enters {e : EvaluatorId} {f : Frame} (hlimit : f.depth < (w.evaluator e).maxDepth)
    (stack : Stack H .evaluation final) :
    State.step β ⟨w, _, stack, .request (.evaluateFrame e f)⟩ = .running (moved w e stack (.enters f)) := by
  have hm : w.move e (.frame f) = .enters f := Job.enters_iff.mpr ⟨rfl, hlimit⟩
  exact hm ▸ step_job w e stack (.frame f)

theorem Turns.step {task task' : Task H k} (h : Turns β w task w' task') (stack : Stack H k final) :
    State.step β ⟨w, k, stack, task⟩ = .running ⟨w', k, stack, task'⟩ := by
  cases h with
  | @ends e job q hm =>
    rw [step_job, hm]
    rfl
  | @becomes e job job' hm =>
    rw [step_job, hm]
    rfl
  | enters hlimit hs =>
    rw [step_enters hlimit, moved, hs]
    rfl
  | dispatches hh => simp only [State.step, begin, hh]
  | brings hp =>
    cases hp with
    | decide hh => simp only [State.step, begin, hh]
    | convert hc => simp only [State.step, begin, hc]
    | compile hb => simp only [State.step, begin, hb]
    | perform => rfl
  | refuses hc hr => simp only [State.step, begin, hc, hr]
  | @recalls c b f inner cache a hc hl =>
    simp only [State.step, begin, hc]
    generalize cache.lookup ⟨f.code.id, b⟩ f = found at hl ⊢
    obtain ⟨answer, cache'⟩ := found
    cases hl
    rfl
  | compiles hb => simp only [State.step, begin, hb]
  | fails hb => simp only [State.step, begin, hb]
  | passes | returns | panics | acts => rfl

theorem Pushes.step {task : Task H l} {p : Pending H k l} {task' : Task H k} (h : Pushes w task w' p task')
    (stack : Stack H l final) : State.step β ⟨w, l, stack, task⟩ = .running ⟨w', k, .cons p stack, task'⟩ := by
  cases h with
  | calls hm =>
    rw [step_job, hm]
    rfl
  | guards hc hr => simp only [State.step, begin, hc, hr]
  | @consults c b f inner cache hc hl =>
    simp only [State.step, begin, hc]
    generalize cache.lookup ⟨f.code.id, b⟩ f = found at hl ⊢
    obtain ⟨answer, cache'⟩ := found
    cases hl
    rfl
  | dispatches | opens | rescues | asks => rfl

theorem Pops.step {p : Pending H k l} {r : Except (Panic H) (k.Result H)} {task' : Task H l}
    (h : Pops w p r w' task') (stack : Stack H l final) :
    (returning w (.cons p stack) r).step β = .running ⟨w', l, stack, task'⟩ := by
  cases h with
  | closes => exact step_restore ..
  | aborts hr => exact step_resume_of_ne _ _ _ hr _
  | settles => rw [step_settle, settled_eq]
  | remembers hc => simp only [returning, Task.ofResult, State.step, deliver, hc]
  | strays hc => simp only [returning, Task.ofResult, State.step, deliver]
  | @rescues r => cases r <;> rfl
  | @drops k l p panic hp =>
    cases p with
    | restore s displaced => exact hp.elim
    | rescue => exact hp.elim
    | _ => rfl
  | _ => rfl

theorem step_iff {s t : State H final} : s.step β = .running t ↔ Step β s t := by
  constructor
  · exact Step.of_step
  · intro h
    cases h with
    | turn h => exact h.step _
    | push h => exact h.step _
    | offer hlimit hs => rw [step_enters hlimit, moved, hs]
    | pop h => exact h.step _

end

end State

end Interception
