import Interception.Proofs.Calls
import Interception.Proofs.Events
import Interception.Proofs.Offers
import Interception.Proofs.Replacement

/-!
The calls of an evaluation as a tree. With interception off the tree is the evaluation's own; a hook that lets every
frame be is offered exactly the frames of that tree, in its order, each of them before its first instruction.
-/

namespace Interception

open State

/-- The instructions of a body in the order in which they are executed; behind a call instruction the frame that it
has entered, with the tree of that frame's own body. -/
inductive CallTree
  | done
  | instruction (a : Activation) (rest : CallTree)
  | frame (f : Frame) (inner rest : CallTree)

namespace CallTree

def append : CallTree → CallTree → CallTree
  | done, u => u
  | instruction a rest, u => instruction a (rest.append u)
  | frame f inner rest, u => frame f inner (rest.append u)

def frames : CallTree → List Frame
  | done => []
  | instruction _ rest => rest.frames
  | frame f inner rest => f :: (inner.frames ++ rest.frames)

def events (hook : Hook) (e : EvaluatorId) : CallTree → List Event
  | done => []
  | instruction a rest => .instruction e a :: rest.events hook e
  | frame f inner rest => .frame hook e f :: (inner.events hook e ++ rest.events hook e)

def Nests (maxDepth : Nat) : Nat → CallTree → Prop
  | _, done => True
  | depth, instruction _ rest => rest.Nests maxDepth depth
  | depth, frame f inner rest =>
    f.depth = depth ∧ depth < maxDepth ∧ inner.Nests maxDepth (depth + 1) ∧ rest.Nests maxDepth depth

variable {t u : CallTree} {hook : Hook} {e : EvaluatorId} {h : HandlerId} {maxDepth depth : Nat}

theorem frames_append (t u : CallTree) : (t.append u).frames = t.frames ++ u.frames := by
  induction t with
  | done => rfl
  | instruction a rest ih => exact ih
  | frame f inner rest _ ih => simp only [append, frames, ih, List.cons_append, List.append_assoc]

theorem events_append (hook : Hook) (e : EvaluatorId) (t u : CallTree) :
    (t.append u).events hook e = t.events hook e ++ u.events hook e := by
  induction t with
  | done => rfl
  | instruction a rest ih => simp only [append, events, ih, List.cons_append]
  | frame f inner rest _ ih => simp only [append, events, ih, List.cons_append, List.append_assoc]

theorem Nests.append (ht : t.Nests maxDepth depth) (hu : u.Nests maxDepth depth) :
    (t.append u).Nests maxDepth depth := by
  induction t generalizing depth with
  | done => exact hu
  | instruction a rest ih => exact ih ht hu
  | frame f inner rest _ ih =>
    obtain ⟨hf, hlimit, hinner, hrest⟩ := ht
    exact ⟨hf, hlimit, hinner, ih hrest hu⟩

end CallTree

namespace Job

def mark : Job → CallTree → CallTree
  | body a, t => .instruction a t
  | _, t => t

def level : Job → Nat
  | call _ _ => 0
  | frame f => f.depth
  | body a => a.depth + 1

end Job

inductive Unfolds (p : Program) (maxDepth : Nat) : Job → CallTree → Ending → Prop
  | ends {job q} (hm : job.move p maxDepth = .ends q) : Unfolds p maxDepth job (job.mark .done) q
  | becomes {job job' t q} (hm : job.move p maxDepth = .becomes job') (hn : Unfolds p maxDepth job' t q) :
    Unfolds p maxDepth job (job.mark t) q
  | enters {job f t q} (hm : job.move p maxDepth = .enters f) (hb : Unfolds p maxDepth (.body (.start f)) t q) :
    Unfolds p maxDepth job (.frame f t .done) q
  | returns {job caller callee t v u q} (hm : job.move p maxDepth = .calls caller callee)
    (hc : Unfolds p maxDepth (.frame callee) t (.result (.ok v)))
    (hb : Unfolds p maxDepth (.body (caller.push v)) u q) : Unfolds p maxDepth job (job.mark (t.append u)) q
  | aborts {job caller callee t q} (hm : job.move p maxDepth = .calls caller callee)
    (hc : Unfolds p maxDepth (.frame callee) t q) (hq : ∀ v, q ≠ .result (.ok v)) :
    Unfolds p maxDepth job (job.mark t) q

variable {H : Host} {final : Kind} {β : Behaviour H} {e : EvaluatorId} {h : HandlerId} {w w' : World H} {job : Job}
  {t : CallTree} {q : Ending} {r : Except (Panic H) (Except EvalError Value)} {p : Program} {maxDepth : Nat}
  {hook : Hook} {f : Frame}

theorem Job.frames_mark (job : Job) (t : CallTree) : (job.mark t).frames = t.frames := by
  cases job <;> rfl

theorem Job.events_mark (w : World H) (stack : Stack H .evaluation final) (hm : ∀ f, w.move e job ≠ .enters f)
    (hook : Hook) (t : CallTree) :
    (job.mark t).events hook e = (event? ⟨w, _, stack, job.task e⟩).toList ++ t.events hook e := by
  cases job with
  | call function args => rfl
  | frame f =>
    rw [task, event?_refused stack hm]
    rfl
  | body a => rfl

theorem Job.event?_of_enters (stack : Stack H .evaluation final) (hm : w.move e job = .enters f) :
    event? ⟨w, _, stack, job.task e⟩ = some (.frame (w.slot (w.evaluator e).slot) e f) := by
  obtain ⟨rfl, hlimit⟩ := Job.enters_iff.mp hm
  exact if_pos hlimit

structure Job.Shows (β : Behaviour H) (hook : Hook) (e : EvaluatorId) (w : World H) (job : Job) (t : CallTree)
    (w' : World H) (r : Except (Panic H) (Except EvalError Value)) : Prop where
  performs : ∀ {final : Kind} (stack : Stack H .evaluation final),
    Performs β ⟨w, _, stack, job.task e⟩ (t.events hook e) (returning w' stack r)

namespace Job.Shows

variable {u : CallTree} {w₁ : World H}

theorem moved (β : Behaviour H) (w : World H) (e : EvaluatorId) (stack : Stack H .evaluation final) (job : Job) :
    Performs β ⟨w, _, stack, job.task e⟩ (event? (⟨w, _, stack, job.task e⟩ : State H final)).toList
      (State.moved w e stack (w.move e job)) := .step (step_job w e stack job)

theorem ends (hm : w.move e job = .ends q) : Shows β hook e w job (job.mark .done) w q.lift := by
  refine ⟨fun stack => ?_⟩
  have hj := moved β w e stack job
  rw [hm] at hj
  rw [job.events_mark w stack (by simp [hm])]
  exact hj.trans (.refl _)

theorem becomes {job' : Job} (hm : w.move e job = .becomes job') (hn : Shows β hook e w job' t w' r) :
    Shows β hook e w job (job.mark t) w' r := by
  refine ⟨fun stack => ?_⟩
  have hj := moved β w e stack job
  rw [hm] at hj
  rw [job.events_mark w stack (by simp [hm])]
  exact hj.trans (hn.performs stack)

theorem returns {caller : Activation} {callee : Frame} {v : Value} (hm : w.move e job = .calls caller callee)
    (hc : Shows β hook e w (.frame callee) t w₁ (.ok (.ok v)))
    (hb : Shows β hook e w₁ (.body (caller.push v)) u w' r) :
    Shows β hook e w job (job.mark (t.append u)) w' r := by
  refine ⟨fun stack => ?_⟩
  have hj := moved β w e stack job
  rw [hm] at hj
  have hresume := Performs.step (step_resume (β := β) w₁ e caller v stack)
  rw [event?_returning] at hresume
  rw [job.events_mark w stack (by simp [hm]), CallTree.events_append]
  exact hj.trans ((hc.performs _).trans (hresume.trans (hb.performs stack)))

theorem aborts {caller : Activation} {callee : Frame} (hm : w.move e job = .calls caller callee)
    (hc : Shows β hook e w (.frame callee) t w' r) (hr : ∀ v, r ≠ .ok (.ok v)) :
    Shows β hook e w job (job.mark t) w' r := by
  refine ⟨fun stack => ?_⟩
  have hj := moved β w e stack job
  rw [hm] at hj
  have hresume := Performs.step (step_resume_of_ne (β := β) w' e caller hr stack)
  rw [event?_returning] at hresume
  have hcallee := (hc.performs _).trans hresume
  rw [Option.toList_none, List.append_nil] at hcallee
  rw [job.events_mark w stack (by simp [hm])]
  exact hj.trans hcallee

theorem plain (hm : w.move e job = .enters f) (hs : w.slot (w.evaluator e).slot = .null)
    (hb : Shows β .null e (w.countFrame e) (.body (.start f)) t w' r) :
    Shows β .null e w job (.frame f t .done) w' r := by
  refine ⟨fun stack => ?_⟩
  have hj := moved β w e stack job
  rw [hm, State.moved, hs, job.event?_of_enters stack hm, hs] at hj
  have hframe := hj.trans (hb.performs stack)
  simpa only [CallTree.events, List.append_nil, Option.toList_some, List.singleton_append, List.nil_append] using hframe

end Job.Shows

theorem Unfolds.shows (hu : Unfolds p maxDepth job t q) (hw : w.Equipped e p maxDepth .null) :
    job.Shows β .null e w t (w.countFrames e t.frames.length) q.lift := by
  induction hu generalizing w with
  | @ends job q hm =>
    rw [Job.frames_mark]
    exact .ends ((hw.move _).trans hm)
  | becomes hm _ ih =>
    rw [Job.frames_mark]
    exact .becomes ((hw.move _).trans hm) (ih hw)
  | enters hm _ ih =>
    simp only [CallTree.frames, List.append_nil, List.length_cons]
    exact .plain ((hw.move _).trans hm) hw.slot (ih (hw.of_restores (World.Restores.countFrame ..)))
  | returns hm _ _ ihc ihb =>
    rw [Job.frames_mark, CallTree.frames_append, List.length_append, World.countFrames_add]
    exact .returns ((hw.move _).trans hm) (ihc hw) (ihb (hw.of_restores (World.restores_countFrames ..)))
  | aborts hm _ hq ih =>
    rw [Job.frames_mark]
    exact .aborts ((hw.move _).trans hm) (ih hw) fun v hv => hq v (Ending.lift_eq_ok_iff.mp hv)

def Decision.LetsBe (f : Frame) : Decision → Prop
  | .fallback => True
  | .replace r => r.applies f = false

def Passive (β : Behaviour H) (h : HandlerId) (w : World H) (f : Frame) : Prop :=
  ∀ n w' r, (ofRequest w (.decide (.active h) f)).run β n = .finished w' r →
    (ofRequest w (.decide (.active h) f)).events β n = [] ∧ ∃ d, r = .ok (.ok d) ∧ d.LetsBe f

def Records (β : Behaviour H) (h : HandlerId) (record : H.State → List Frame) (w : World H) (f : Frame) : Prop :=
  ∀ w' r, Finishes β (ofRequest w (.decide (.active h) f)) w' r → record w'.host = record w.host ++ [f]

theorem World.settle_letsBe {d : Decision} (w : World H) (e : EvaluatorId) (hd : d.LetsBe f) :
    ∃ w', w.settle e f (.ok (.ok d)) = .runs w' (.start f) := by
  cases d with
  | fallback => exact ⟨w, rfl⟩
  | replace r =>
    have hfails : ¬ r.applies f := Bool.not_eq_true _ ▸ hd
    exact ⟨_, settle_eq_iff.mpr (.misses hfails)⟩

namespace World

theorem host_log (w : World H) (level : Level) (message : Message) : (w.log level message).host = w.host := by
  unfold log; split <;> rfl

theorem host_offering (w : World H) (e : EvaluatorId) : (w.offering e).host = w.host := host_log ..

theorem host_closeGuard (w : World H) (s : SlotId) (hook : Hook) : (w.closeGuard s hook).host = w.host := host_log ..

theorem host_settle (w : World H) (e : EvaluatorId) (f : Frame) (d : Except (Panic H) (Except HookError Decision)) :
    (w.settle e f d).world.host = w.host := by
  rcases w.settle_world e f d with hw | hw | hw <;> rw [hw]
  · rfl
  · exact host_log ..

end World

theorem State.performs_settled {d : Except (Panic H) (Except HookError Decision)} (stack : Stack H .evaluation final)
    (hd : Performs β (ofRequest w (.decide (.active h) f)) [] (returning w' .nil d)) :
    Performs β (offer w e h f stack) []
      (settled e stack ((w'.closeGuard (w.evaluator e).slot (.active h)).settle e f d)) := by
  have hdecide := hd.under (.cons (.restore (w.evaluator e).slot (.active h)) (.cons (.settle e f) stack))
  have hrestore := Performs.step (step_restore (β := β) (k := .decision) w' d (w.evaluator e).slot (.active h)
    (.cons (.settle e f) stack))
  have hsettle := Performs.step (step_settle (β := β) (w'.closeGuard (w.evaluator e).slot (.active h)) e f d stack)
  rw [event?_returning, Option.toList_none] at hrestore hsettle
  exact hdecide.trans (hrestore.trans hsettle)

namespace Job.Shows

variable {w₁ w₂ : World H}

theorem passed {d : Except (Panic H) (Except HookError Decision)} (hm : w.move e job = .enters f)
    (hs : w.slot (w.evaluator e).slot = .active h)
    (hd : Performs β (ofRequest (w.offering e) (.decide (.active h) f)) [] (returning w₁ .nil d))
    (ht : (w₁.closeGuard (w.evaluator e).slot (.active h)).settle e f d = .runs w₂ (.start f))
    (hb : Shows β (.active h) e w₂ (.body (.start f)) t w' r) :
    Shows β (.active h) e w job (.frame f t .done) w' r := by
  refine ⟨fun stack => ?_⟩
  have hj := moved β w e stack job
  rw [hm, State.moved, hs, job.event?_of_enters stack hm, hs] at hj
  have hsettled := performs_settled (e := e) stack hd
  rw [World.evaluator_slot_offering, ht] at hsettled
  have hframe := hj.trans (hsettled.trans (hb.performs stack))
  simpa only [CallTree.events, List.append_nil, Option.toList_some, List.singleton_append, List.nil_append]
    using hframe

end Job.Shows

def Job.Recorded (β : Behaviour H) (e : EvaluatorId) (h : HandlerId) (w : World H) (job : Job) (t : CallTree)
    (w' : World H) : Prop :=
  ∀ record, Along (Records β h record) β e h (job.start w e) → record w'.host = record w.host ++ t.frames

namespace Job.Recorded

variable {u : CallTree} {w₁ w₂ : World H}

theorem ends (job : Job) : Recorded β e h w job (job.mark .done) w := by
  intro record _
  rw [frames_mark]
  exact (List.append_nil _).symm

theorem becomes {job' : Job} (hm : w.move e job = .becomes job') (hn : Recorded β e h w job' t w') :
    Recorded β e h w job (job.mark t) w' := by
  intro record hr
  rw [frames_mark]
  exact hn record (hr.becomes hm)

theorem passed {d : Except (Panic H) (Except HookError Decision)} {a : Activation} (hm : w.move e job = .enters f)
    (hs : w.slot (w.evaluator e).slot = .active h)
    (hd : Finishes β (ofRequest (w.offering e) (.decide (.active h) f)) w₁ d)
    (ht : (w₁.closeGuard (w.evaluator e).slot (.active h)).settle e f d = .runs w₂ a)
    (hb : Recorded β e h w₂ (.body a) t w') : Recorded β e h w job (.frame f t .done) w' := by
  intro record hr
  have hasked := hr.offered hm hs w₁ d hd
  rw [World.host_offering] at hasked
  have hsettled := World.host_settle (w₁.closeGuard (w.evaluator e).slot (.active h)) e f d
  rw [ht, World.host_closeGuard] at hsettled
  have hbody := hb record (hr.settled hm hs hd ht)
  rw [show w₂.host = w₁.host from hsettled, hasked] at hbody
  simpa only [CallTree.frames, List.append_nil, List.append_assoc, List.singleton_append] using hbody

theorem returns {caller : Activation} {callee : Frame} {v : Value} (hm : w.move e job = .calls caller callee)
    (he : Evaluates β e w (.frame callee) w₁ (.ok (.ok v))) (hc : Recorded β e h w (.frame callee) t w₁)
    (hb : Recorded β e h w₁ (.body (caller.push v)) u w') : Recorded β e h w job (job.mark (t.append u)) w' := by
  intro record hr
  rw [frames_mark, CallTree.frames_append, hb record (hr.resumed hm he), hc record (hr.callee hm), List.append_assoc]

theorem aborts {caller : Activation} {callee : Frame} (hm : w.move e job = .calls caller callee)
    (hc : Recorded β e h w (.frame callee) t w') : Recorded β e h w job (job.mark t) w' := by
  intro record hr
  rw [frames_mark]
  exact hc record (hr.callee hm)

end Job.Recorded

theorem Evaluates.shows (he : Evaluates β e w job w' r) (hw : w.Equipped e p maxDepth (.active h))
    (hp : Along (Passive β h) β e h (job.start w e)) :
    ∃ t q, Unfolds p maxDepth job t q ∧ r = q.lift ∧ job.Shows β (.active h) e w t w' r ∧
      job.Recorded β e h w t w' := by
  induction he with
  | ends hm => exact ⟨_, _, .ends ((hw.move _).symm.trans hm), rfl, .ends hm, .ends _⟩
  | becomes hm _ ih =>
    obtain ⟨t, q, ht, rfl, hshows, hrecorded⟩ := ih hw (hp.becomes hm)
    exact ⟨_, q, .becomes ((hw.move _).symm.trans hm) ht, rfl, .becomes hm hshows, .becomes hm hrecorded⟩
  | plain _ hs => exact absurd (hs.symm.trans hw.slot) (by simp)
  | @decided w job f h' w₁ d w₂ a _ _ hm hs hd ht _ ih =>
    obtain rfl := hw.hook_eq hs
    obtain ⟨n, hn⟩ := hd
    obtain ⟨hquiet, d', rfl, hd'⟩ := hp.offered hm hs n _ _ hn
    have hperforms := performs_of_run hn
    rw [hquiet] at hperforms
    obtain ⟨w₃, ht'⟩ := (w₁.closeGuard (w.evaluator e).slot (.active h')).settle_letsBe e hd'
    obtain ⟨rfl, rfl⟩ := Settled.runs.inj (ht.symm.trans ht')
    have hrestores := settled_restores hm hs ⟨n, hn⟩
    rw [ht] at hrestores
    obtain ⟨t, q, hu, rfl, hshows, hrecorded⟩ := ih (hw.of_restores hrestores) (hp.settled hm hs ⟨n, hn⟩ ht)
    exact ⟨_, q, .enters ((hw.move _).symm.trans hm) hu, rfl, .passed hm hs hperforms ht hshows,
      .passed hm hs ⟨n, hn⟩ ht hrecorded⟩
  | @dropped w job f h' w₁ d _ _ hm hs hd ht =>
    obtain rfl := hw.hook_eq hs
    obtain ⟨n, hn⟩ := hd
    obtain ⟨-, d', rfl, hd'⟩ := hp.offered hm hs n _ _ hn
    obtain ⟨w₃, ht'⟩ := (w₁.closeGuard (w.evaluator e).slot (.active h')).settle_letsBe e hd'
    cases ht.symm.trans ht'
  | returns hm hc _ ihc ihb =>
    obtain ⟨t, q, ht, hq, hcallee, hrecorded⟩ := ihc hw (hp.callee hm)
    obtain rfl := Ending.lift_eq_ok_iff.mp hq.symm
    obtain ⟨u, q, hu, rfl, hbody, hrecorded'⟩ := ihb (hw.of_restores hc.restores) (hp.resumed hm hc)
    exact ⟨_, q, .returns ((hw.move _).symm.trans hm) ht hu, rfl, .returns hm hcallee hbody,
      .returns hm hc hrecorded hrecorded'⟩
  | aborts hm _ hr ih =>
    obtain ⟨t, q, ht, rfl, hcallee, hrecorded⟩ := ih hw (hp.callee hm)
    exact ⟨_, q, .aborts ((hw.move _).symm.trans hm) ht fun v hv => hr v (Ending.lift_eq_ok_iff.mpr hv), rfl,
      .aborts hm hcallee hr, .aborts hm hrecorded⟩

namespace SingleHook

def innerFrame : Frame :=
  { outerFrame with code := .make ⟨2⟩ ⟨"inner", 0, 0, #[0x03, 0x33]⟩, depth := 1, code_locals_le := by decide }

end SingleHook

namespace RecordingHook

open SingleHook (program outerFrame innerFrame)

abbrev host : Host := ⟨List Frame, Empty, Empty, Empty, Unit, Empty, Empty, Empty⟩

def behaviour : Behaviour host where
  decide _ f := .act .host fun frames => .act (.setHost (frames ++ [f])) fun _ =>
    .done (.ok (.replace ⟨f.code, .argTags (.int :: f.argTags)⟩))
  convert := nofun
  compile := nofun
  perform := nofun

def evaluator : EvaluatorId := ⟨0⟩

def world : World host :=
  { slots := ⟨#[.null, .null]⟩
    handlers := ⟨#[.custom ()]⟩
    evaluators := ⟨#[{ program, slot := ⟨1⟩, maxDepth := 2 }]⟩
    host := [] }

theorem decides {w : World host} {f : Frame} (hw : w.handler ⟨0⟩ = .custom ()) :
    (ofRequest w (.decide (.active ⟨0⟩) f)).run behaviour 5 = .finished { w with host := w.host ++ [f] }
      (.ok (.ok (.replace ⟨f.code, .argTags (.int :: f.argTags)⟩))) ∧
    (ofRequest w (.decide (.active ⟨0⟩) f)).events behaviour 5 = [] := by
  constructor
  · simp only [run, ofRequest, step, begin, hw]
    rfl
  · simp only [State.events, visited, ofRequest, step, begin, hw]
    rfl

end RecordingHook

end Interception
