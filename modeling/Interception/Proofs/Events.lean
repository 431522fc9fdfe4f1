import Interception.Proofs.Evaluates
import Interception.Proofs.Visits

namespace Interception

variable {H : Host} {k l final : Kind} {β : Behaviour H}

inductive Event
  | frame (hook : Hook) (e : EvaluatorId) (f : Frame)
  | instruction (e : EvaluatorId) (a : Activation)

def Event.frameUnder? (h : HandlerId) : Event → Option Frame
  | frame hook _ f => if hook = .active h then some f else none
  | instruction _ _ => none

theorem Event.frameUnder?_eq_some_iff {h : HandlerId} {event : Event} {f : Frame} :
    event.frameUnder? h = some f ↔ ∃ e, event = .frame (.active h) e f := by
  cases event <;> simp [frameUnder?]

inductive Sight
  | invocation (f : Frame)
  | instruction (e : EvaluatorId) (a : Activation)

def Event.sight? (h : HandlerId) : Event → Option Sight
  | frame hook _ f => if hook = .active h then some (.invocation f) else none
  | instruction e a => some (.instruction e a)

theorem Event.sight?_frame (h : HandlerId) (hook : Hook) (e : EvaluatorId) (f : Frame) :
    (frame hook e f).sight? h = ((frame hook e f).frameUnder? h).map .invocation := by
  rw [sight?, frameUnder?]
  split <;> rfl

def Stack.scripted : Stack H k final → Bool
  | .cons (.proceed _) _ => true
  | _ => false

namespace State

def event? : State H final → Option Event
  | ⟨w, _, _, .request (.evaluateFrame e f)⟩ =>
    if f.depth < (w.evaluator e).maxDepth then some (.frame (w.slot (w.evaluator e).slot) e f) else none
  | ⟨_, _, _, .run e a⟩ => some (.instruction e a)
  | _ => none

def events (β : Behaviour H) (n : Nat) (s : State H final) : List Event := (s.visited β n).filterMap event?

theorem event?_under (s : State H l) (rest : Stack H l final) : (s.under rest).event? = s.event? := by
  obtain ⟨w, j, stack, task⟩ := s
  cases task with
  | request q => cases q <;> rfl
  | _ => rfl

theorem event?_returning (w : World H) (stack : Stack H k final) (r : Except (Panic H) (k.Result H)) :
    (returning w stack r).event? = none := by
  cases r <;> rfl

theorem of_event?_eq_frame {s : State H final} {hook : Hook} {e : EvaluatorId} {f : Frame}
    (hs : s.event? = some (.frame hook e f)) : ∃ w stack, f.depth < (w.evaluator e).maxDepth ∧
      w.slot (w.evaluator e).slot = hook ∧ s = ⟨w, _, stack, .request (.evaluateFrame e f)⟩ := by
  obtain ⟨w, j, stack, task⟩ := s
  cases task with
  | request q =>
    cases q with
    | evaluateFrame e' f' =>
      simp only [event?] at hs
      split at hs
      · next hlimit =>
        simp only [Option.some.injEq, Event.frame.injEq] at hs
        obtain ⟨hslot, rfl, rfl⟩ := hs
        exact ⟨w, stack, hlimit, hslot, rfl⟩
      · cases hs
    | _ => cases hs
  | _ => cases hs

theorem event?_refused {w : World H} {e : EvaluatorId} {f : Frame} (stack : Stack H .evaluation final)
    (hm : ∀ g, w.move e (.frame f) ≠ .enters g) : event? ⟨w, _, stack, .request (.evaluateFrame e f)⟩ = none :=
  if_neg fun hlimit => hm f (Job.enters_iff.mpr ⟨rfl, hlimit⟩)

theorem frameUnder?_job {w : World H} {e : EvaluatorId} {job : Job} (stack : Stack H .evaluation final)
    (hm : ∀ f, w.move e job ≠ .enters f) (h : HandlerId) :
    (event? ⟨w, _, stack, job.task e⟩).bind (·.frameUnder? h) = none := by
  cases job with
  | frame f =>
    rw [Job.task, event?_refused stack hm]
    rfl
  | _ => rfl

/-- The frame about which the hook is asked, unless it is a script that asks. -/
def invoked? (h : HandlerId) : State H final → Option Frame
  | ⟨_, _, stack, .request (.decide hook f)⟩ => if hook = .active h && !stack.scripted then some f else none
  | _ => none

theorem invoked?_returning (w : World H) (stack : Stack H k final) (r : Except (Panic H) (k.Result H)) (h : HandlerId) :
    (returning w stack r).invoked? h = none := by
  cases r <;> rfl

theorem offer_inj {w w' : World H} {e e' : EvaluatorId} {h h' : HandlerId} {f f' : Frame}
    {stack stack' : Stack H .evaluation final} (hs : offer w e h f stack = offer w' e' h' f' stack') :
    w = w' ∧ e = e' ∧ h = h' ∧ f = f' ∧ stack = stack' := by
  simp only [offer, State.mk.injEq, true_and, heq_eq_eq, Stack.cons.injEq, Pending.settle.injEq, Task.request.injEq,
    Request.decide.injEq, Hook.active.injEq] at hs
  obtain ⟨hw, ⟨-, ⟨he, hf⟩, hstack⟩, hh, -⟩ := hs
  exact ⟨hw, he, hh, hf, hstack⟩

theorem invoked?_offer (w : World H) (e : EvaluatorId) (h' : HandlerId) (f : Frame) (stack : Stack H .evaluation final)
    (h : HandlerId) : (offer w e h' f stack).invoked? h = if h' = h then some f else none := by
  show (if Hook.active h' = .active h && !false then some f else none) = _
  simp

theorem Step.invoked? {s t : State H final} (hst : Step β s t) (h : HandlerId) :
    t.invoked? h = s.event?.bind (·.frameUnder? h) := by
  cases hst with
  | @turn k w w' stack task task' hturn =>
    cases hturn with
    | ends hm =>
      rw [frameUnder?_job stack (by simp [hm])]
      exact invoked?_returning ..
    | @becomes e job job' hm =>
      rw [frameUnder?_job stack (by simp [hm])]
      cases job' <;> rfl
    | @enters e f hlimit hs =>
      rw [event?, if_pos hlimit, hs]
      rfl
    | brings hp => cases hp <;> rfl
    | _ => rfl
  | @push k l w w' stack task p task' hpush =>
    cases hpush with
    | calls hm => exact (frameUnder?_job stack (by simp [hm]) h).symm
    | @asks k l q next =>
      cases q with
      | decide hook f => exact if_neg (by simp [Stack.scripted])
      | _ => rfl
    | _ => rfl
  | @offer w e f h' stack hlimit hs =>
    rw [event?, if_pos hlimit, hs]
    rw [invoked?_offer]
    simp [Event.frameUnder?]
  | @pop k l w w' stack p r task' hpop =>
    rw [event?_returning]
    cases hpop with
    | closes | aborts => exact invoked?_returning ..
    | @settles e f d =>
      rw [← settled_eq]
      cases w.settle e f d with
      | runs w a => rfl
      | ends w r => exact invoked?_returning (k := .evaluation) w stack r h
    | _ => rfl

theorem event?_eq_frame_iff {s : State H final} {e : EvaluatorId} {h : HandlerId} {f : Frame} :
    s.event? = some (.frame (.active h) e f) ↔ ∃ w stack, s.step β = .running (offer w e h f stack) := by
  constructor
  · intro hs
    obtain ⟨w, stack, hlimit, hslot, rfl⟩ := of_event?_eq_frame hs
    exact ⟨_, _, step_iff.mpr (.offer hlimit hslot)⟩
  · rintro ⟨w, stack, hs⟩
    have hinvoked := (step_iff.mp hs).invoked? h
    rw [invoked?_offer, if_pos rfl] at hinvoked
    obtain ⟨event, hevent, hoffered⟩ := Option.bind_eq_some_iff.mp hinvoked.symm
    obtain ⟨e', rfl⟩ := Event.frameUnder?_eq_some_iff.mp hoffered
    obtain ⟨w', stack', hlimit, hslot, rfl⟩ := of_event?_eq_frame hevent
    have hoffers : Step β ⟨w', _, stack', .request (.evaluateFrame e' f)⟩ _ := .offer hlimit hslot
    obtain ⟨-, rfl, -⟩ := offer_inj (Outcome.running.inj (hs.symm.trans (step_iff.mpr hoffers)))
    exact hevent

def sight? (h : HandlerId) : State H final → Option Sight
  | ⟨_, _, _, .run e a⟩ => some (.instruction e a)
  | s => (s.invoked? h).map .invocation

theorem Step.sight? {s t : State H final} (hst : Step β s t) (h : HandlerId) :
    (s.sight? h).toList ++ ((t.invoked? h).map Sight.invocation).toList =
      ((s.invoked? h).map Sight.invocation).toList ++ (s.event?.bind (·.sight? h)).toList := by
  rw [hst.invoked? h]
  obtain ⟨w, j, stack, task⟩ := s
  cases task with
  | request q =>
    cases q with
    | evaluateFrame e f =>
      rw [event?]
      split
      · rw [Option.bind_some, Option.bind_some, Event.sight?_frame]
        rfl
      · rfl
    | _ => rfl
  | _ => rfl

def Performs (β : Behaviour H) (s : State H final) (es : List Event) (t : State H final) : Prop :=
  ∃ n, s.run β n = .running t ∧ s.events β n = es

namespace Performs

variable {s t u : State H final} {es es' : List Event}

theorem refl (s : State H final) : Performs β s [] s := ⟨0, rfl, rfl⟩

theorem step (h : s.step β = .running t) : Performs β s s.event?.toList t := by
  refine ⟨1, run_succ h 0, ?_⟩
  rw [events, visited_succ h]
  cases he : s.event? <;> simp [visited, he]

theorem trans (h : Performs β s es t) (h' : Performs β t es' u) : Performs β s (es ++ es') u := by
  obtain ⟨n, hn, rfl⟩ := h
  obtain ⟨m, hm, rfl⟩ := h'
  refine ⟨n + m, (run_add hn m).trans hm, ?_⟩
  rw [events, visited_add hn, List.filterMap_append]
  rfl

theorem under {s t : State H l} (h : Performs β s es t) (rest : Stack H l final) :
    Performs β (s.under rest) es (t.under rest) := by
  obtain ⟨n, hn, rfl⟩ := h
  refine ⟨n, run_running_under hn rest, ?_⟩
  rw [events, visited_under hn, List.filterMap_map]
  exact congrArg (fun g => (s.visited β n).filterMap g) (funext fun u => event?_under u rest)

end Performs

theorem performs_of_run {s : State H final} {w : World H} {r : Except (Panic H) (final.Result H)} {n : Nat}
    (h : s.run β n = .finished w r) : Performs β s (s.events β n) (returning w .nil r) := by
  obtain ⟨m, hm, hvisited⟩ := visited_of_run h
  refine ⟨m, hm, ?_⟩
  rw [events, events, hvisited, List.filterMap_append]
  simp [event?_returning]

theorem Performs.finishes {s : State H final} {es : List Event} {w : World H}
    {r : Except (Panic H) (final.Result H)} (h : Performs β s es (returning w .nil r)) :
    ∃ n, s.run β n = .finished w r ∧ s.events β n = es := by
  obtain ⟨n, hn, rfl⟩ := h
  have hlast := step_returning (β := β) w r
  refine ⟨n + 1, ?_, ?_⟩
  · rw [run_add hn 1]
    simp only [run, hlast]
  · rw [events, visited_add hn, List.filterMap_append]
    simp [visited, hlast, event?_returning, events]

end State

end Interception
