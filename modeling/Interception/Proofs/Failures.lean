import Interception.Proofs.Accounts
import Interception.Proofs.CallTrees

namespace Interception

variable {H : Host} {k final : Kind} {β : Behaviour H} {e : EvaluatorId} {w w' : World H} {job : Job} {f : Frame}
  {h : HandlerId} {callers : List Activation}

namespace World

theorem evaluator_classify (w : World H) (d : Dispatch) (f : Frame) (a : Conversion) (e : EvaluatorId) :
    (w.classify d f a).evaluator e = w.evaluator e := by
  cases a with
  | declined reason =>
    exact (evaluator_recordTally ..).trans (evaluator_of_fixtures (fixtures_log ..) e)
  | _ => exact evaluator_recordTally ..

def frames (w : World H) (e : EvaluatorId) : Nat := (w.evaluator e).usage.frames

theorem frames_of_evaluator (h : w'.evaluator e = w.evaluator e) : w'.frames e = w.frames e :=
  congrArg (·.usage.frames) h

theorem frames_setUsage (w : World H) (e' : EvaluatorId) (usage : Usage) (h : usage.frames = w.frames e')
    (e : EvaluatorId) : (w.setUsage e' usage).frames e = w.frames e := by
  by_cases he : e' = e
  · subst he
    rw [frames, evaluator_setUsage_self]
    exact h
  · rw [frames, evaluator_setUsage_ne w usage he]
    rfl

theorem frames_settle (w : World H) (e' : EvaluatorId) (f : Frame)
    (d : Except (Panic H) (Except HookError Decision)) (e : EvaluatorId) :
    (w.settle e' f d).world.frames e = w.frames e := by
  rcases w.settle_world e' f d with hw | hw | hw <;> rw [hw]
  · exact frames_setUsage w e' { (w.evaluator e').usage with replaced := (w.evaluator e').usage.replaced + 1 } rfl e
  · have hlogged := evaluator_of_fixtures (fixtures_log (w.countGuardFailure e') .trace (.guardFailed f.name)) e
    have hcounted := frames_setUsage w e'
      { (w.evaluator e').usage with guardFailures := (w.evaluator e').usage.guardFailures + 1 } rfl e
    exact (frames_of_evaluator hlogged).trans hcounted

end World

namespace State

variable {s t u : State H final} {n : Nat}

theorem Effect.frames (h : Effect s t) (he : e.index < s.world.evaluators.cells.size)
    (hs : ∀ hook f, s.event? ≠ some (.frame hook e f)) : t.world.frames e = s.world.frames e := by
  cases h with
  | turn hw | push hw | pop hw => exact World.frames_of_evaluator (World.evaluator_of_books hw e)
  | command => exact World.frames_of_evaluator (World.evaluator_run _ _ he)
  | @entered w e' f stack hlimit =>
    have hne : e' ≠ e := by
      rintro rfl
      exact hs _ f (if_pos hlimit)
    exact World.frames_of_evaluator (World.evaluator_setUsage_ne w _ hne)
  | @offered w e' f h stack hlimit =>
    have hne : e' ≠ e := by
      rintro rfl
      exact hs _ f (if_pos hlimit)
    have hopened := World.evaluator_openGuard (w.countFrame e') (w.evaluator e').slot .null e
    exact World.frames_of_evaluator (hopened.trans (World.evaluator_setUsage_ne w _ hne))
  | @settled w e' f d stack =>
    have hsettled := World.frames_settle w e' f d e
    rw [← world_settled e' stack] at hsettled
    exact hsettled
  | dispatched => exact World.frames_of_evaluator (World.evaluator_recordTally ..)
  | @classified w d f a stack =>
    rw [deliver_classify]
    exact World.frames_of_evaluator (World.evaluator_classify w d f a e)
  | recalled | consulted | remembered | strayed | abandoned => rfl

theorem frames_of_run (hn : s.run β n = .running t) (he : e.index < s.world.evaluators.cells.size)
    (hs : ∀ hook f, .frame hook e f ∉ s.events β n) : t.world.frames e = s.world.frames e := by
  have hunseen : ∀ u ∈ s.visited β n, ∀ hook f, u.event? ≠ some (.frame hook e f) :=
    fun u hu hook f hevent => hs hook f (List.mem_filterMap.mpr ⟨u, hu, hevent⟩)
  suffices hkept : e.index < t.world.evaluators.cells.size ∧ t.world.frames e = s.world.frames e from hkept.2
  refine visited_induct (I := fun _ t => e.index < t.world.evaluators.cells.size ∧
    t.world.frames e = s.world.frames e) ?_ hunseen hn ⟨he, rfl⟩
  rintro - u v hu huv ⟨hsize, hframes⟩
  exact ⟨(World.covers_keepsEvaluators.step huv e hsize).1,
    ((effect_of_step huv).frames hsize hu).trans hframes⟩

def raises? : State H final → Option EvalError
  | ⟨_, .evaluation, _, .answer (.error cause)⟩ => some cause
  | _ => none

theorem raises?_of_kind (h : u.kind ≠ .evaluation) : u.raises? = none := by
  obtain ⟨w, j, stack, task⟩ := u
  cases j with
  | evaluation => exact absurd rfl h
  | _ => cases task <;> rfl

theorem event?_of_kind (h : u.kind ≠ .evaluation) : u.event? = none := by
  obtain ⟨w, j, stack, task⟩ := u
  cases task with
  | request q =>
    cases q with
    | evaluateFrame e f => exact absurd rfl h
    | _ => rfl
  | run e a => exact absurd rfl h
  | _ => rfl

theorem raises?_returning {stack : Stack H .evaluation final} {r : Except (Panic H) (Except EvalError Value)}
    {cause : EvalError} : (returning w stack r).raises? = some cause ↔ r = .ok (.error cause) := by
  rcases r with panic | cause' | v
  · simp [returning, Task.ofResult, raises?]
  · simp [returning, Task.ofResult, raises?]
  · simp [returning, Task.ofResult, raises?]

theorem raises?_job (w : World H) (e : EvaluatorId) (stack : Stack H .evaluation final) (job : Job) :
    raises? ⟨w, _, stack, job.task e⟩ = none := by
  cases job <;> rfl

def suspended (e : EvaluatorId) : List Activation → Stack H .evaluation .evaluation
  | [] => .nil
  | caller :: callers => .cons (.resume e caller) (suspended e callers)

theorem performs_failing (β : Behaviour H) (w : World H) (e : EvaluatorId) (callers : List Activation)
    (cause : EvalError) : Performs β (returning w (suspended e callers) (.ok (.error cause))) []
      (returning w .nil (.ok (.error cause))) := by
  induction callers with
  | nil => exact .refl _
  | cons caller callers ih =>
    have hresume := Performs.step (step_resume_of_ne (β := β) w e caller (r := .ok (.error cause))
      (fun v hv => by cases hv) (suspended e callers))
    exact hresume.trans ih

def Refused (β : Behaviour H) (e : EvaluatorId) (s : State H .evaluation) (cause : HookError) : Prop :=
  ∃ w h f stack w', Reaches β s (offer w e h f stack) ∧
    Finishes β (ofRequest w (.decide (.active h) f)) w' (.ok (.error cause))

inductive Stage (β : Behaviour H) (e : EvaluatorId) (s : State H .evaluation) : State H .evaluation → Prop
  | working (w : World H) (job : Job) (callers : List Activation) : Stage β e s ⟨w, _, suspended e callers, job.task e⟩
  | returning {r : Except (Panic H) (Except EvalError Value)} (w : World H) (callers : List Activation)
    (hr : ∀ cause, r = .ok (.error (.hook cause)) → Refused β e s cause) :
    Stage β e s (returning w (suspended e callers) r)
  | deciding {w : World H} {h : HandlerId} {f : Frame} {callers : List Activation} {u : State H .decision}
    (ho : Reaches β s (offer w e h f (suspended e callers)))
    (hu : Reaches β (ofRequest w (.decide (.active h) f)) u) :
    Stage β e s
      (u.under (.cons (.restore (w.evaluator e).slot (.active h)) (.cons (.settle e f) (suspended e callers))))
  | decided {w w' : World H} {h : HandlerId} {f : Frame} {callers : List Activation}
    {d : Except (Panic H) (Except HookError Decision)}
    (ho : Reaches β s (offer w e h f (suspended e callers)))
    (hd : Finishes β (ofRequest w (.decide (.active h) f)) w' d) (w₁ : World H) :
    Stage β e s (State.returning w₁ (.cons (.settle e f) (suspended e callers)) d)

theorem settle_hook {d : Except (Panic H) (Except HookError Decision)} {cause : HookError}
    (h : w.settle e f d = .ends w' (.ok (.error (.hook cause)))) : d = .ok (.error cause) := by
  cases World.settle_eq_iff.mp h with
  | fails => rfl

namespace Stage

variable {s u v : State H .evaluation}

theorem moved (hs : Reaches β s (State.moved w e (suspended e callers) (w.move e job))) :
    Stage β e s (State.moved w e (suspended e callers) (w.move e job)) := by
  cases hm : w.move e job with
  | ends q =>
    refine .returning _ callers fun cause hcause => ?_
    -- a job ends by itself in no error of a hook
    obtain rfl : q = .result (.error (.hook cause)) := Ending.lift_inj hcause
    exact (Job.ends_own hm).elim
  | becomes job' => exact .working _ job' callers
  | calls caller callee => exact .working _ (.frame callee) (caller :: callers)
  | enters f =>
    rw [hm] at hs
    simp only [State.moved] at hs ⊢
    cases hslot : w.slot (w.evaluator e).slot with
    | null => exact .working _ (.body (.start f)) callers
    | active h =>
      rw [hslot] at hs
      exact .deciding hs .refl

theorem step (hu : Stage β e s u) (hs : Reaches β s u) (huv : u.step β = .running v) : Stage β e s v := by
  cases hu with
  | working w job callers =>
    have hv := Outcome.running.inj ((step_job w e (suspended e callers) job).symm.trans huv)
    have hreaches := hs.trans (.step huv)
    subst hv
    exact moved hreaches
  | @returning r w callers hr =>
    cases callers with
    | nil =>
      exfalso
      cases r <;> cases huv
    | cons caller callers =>
      by_cases hvalue : ∃ x, r = .ok (.ok x)
      · obtain ⟨x, rfl⟩ := hvalue
        obtain rfl := Outcome.running.inj ((step_resume w e caller x (suspended e callers)).symm.trans huv)
        exact .working _ (.body (caller.push x)) callers
      · have hne : ∀ x, r ≠ .ok (.ok x) := fun x hx => hvalue ⟨x, hx⟩
        obtain rfl := Outcome.running.inj ((step_resume_of_ne w e caller hne (suspended e callers)).symm.trans huv)
        exact .returning _ callers hr
  | @deciding w h f callers x ho hx =>
    cases hstep : x.step β with
    | running y =>
      obtain rfl := Outcome.running.inj ((step_under hstep _).symm.trans huv)
      exact .deciding ho (hx.trans (.step hstep))
    | finished w' d =>
      have hd : Finishes β (ofRequest w (.decide (.active h) f)) w' d :=
        hx.finishes (eq_returning_of_step hstep ▸ finishes_returning)
      obtain rfl := eq_returning_of_step hstep
      have hrestore := step_restore (β := β) w' d (w.evaluator e).slot (.active h)
        (.cons (.settle e f) (suspended e callers))
      obtain rfl := Outcome.running.inj (hrestore.symm.trans huv)
      exact .decided ho hd _
  | @decided w w' h f callers d ho hd w₁ =>
    have hsettle := step_settle (β := β) w₁ e f d (suspended e callers)
    obtain rfl := Outcome.running.inj (hsettle.symm.trans huv)
    cases hends : w₁.settle e f d with
    | runs w₂ a => exact .working _ (.body a) callers
    | ends w₂ r =>
      refine .returning _ callers fun cause hcause => ?_
      obtain rfl := settle_hook (hcause ▸ hends)
      exact ⟨w, h, f, _, w', ho, hd⟩

theorem of_reaches (hu : Reaches β (job.start w e) u) : Stage β e (job.start w e) u := by
  suffices hstage : Reaches β (job.start w e) u ∧ Stage β e (job.start w e) u from hstage.2
  refine hu.induct (I := fun u => Reaches β (job.start w e) u ∧ Stage β e (job.start w e) u) ?_
    ⟨.refl, .working w job []⟩
  rintro x y hxy ⟨hx, hstage⟩
  exact ⟨hx.trans (.step hxy), hstage.step hx hxy⟩

end Stage

def Concludes (β : Behaviour H) (e : EvaluatorId) (cause : EvalError) (s : State H .evaluation) : Prop :=
  ∃ n w, s.run β n = .finished w (.ok (.error cause)) ∧ s.events β n = [] ∧ w.frames e = s.world.frames e

theorem concludes_returning (β : Behaviour H) (w : World H) (e : EvaluatorId) (callers : List Activation)
    (cause : EvalError) : Concludes β e cause (returning w (suspended e callers) (.ok (.error cause))) := by
  obtain ⟨n, hn, hevents⟩ := (performs_failing β w e callers cause).finishes
  exact ⟨n, w, hn, hevents, rfl⟩

def Unevaluating (β : Behaviour H) (h : HandlerId) (w : World H) (f : Frame) : Prop :=
  ∀ u, Reaches β (ofRequest w (.decide (.active h) f)) u → u.kind ≠ .evaluation

theorem Unevaluating.performs {d : Except (Panic H) (Except HookError Decision)} (hu : Unevaluating β h w f)
    (hd : Finishes β (ofRequest w (.decide (.active h) f)) w' d) :
    Performs β (ofRequest w (.decide (.active h) f)) [] (returning w' .nil d) := by
  obtain ⟨n, hn⟩ := hd
  have hsilent : (ofRequest w (.decide (.active h) f)).events β n = [] := by
    apply List.filterMap_eq_nil_iff.mpr
    intro u hvisited
    exact event?_of_kind (hu u (reaches_of_visited hvisited))
  exact hsilent ▸ performs_of_run hn

theorem enters_of_moved {m : Move} {stack stack' : Stack H .evaluation final} {e' : EvaluatorId}
    (hs : moved w e stack m = offer w' e' h f stack') : (∃ g, m = .enters g) ∧ stack' = stack := by
  cases m with
  | ends q => cases q <;> cases hs
  | becomes job => cases hs
  | calls caller callee => cases hs
  | enters g =>
    simp only [moved] at hs
    cases hslot : w.slot (w.evaluator e).slot with
    | null =>
      rw [hslot] at hs
      cases hs
    | active h' =>
      rw [hslot] at hs
      simp only [offer, State.mk.injEq, true_and, heq_eq_eq, Stack.cons.injEq] at hs
      exact ⟨⟨g, rfl⟩, hs.2.1.2.2.symm⟩

namespace Stage

variable {s u : State H .evaluation} {cause : EvalError}

theorem raises (hu : Stage β e s u) (ha : ∀ h, Along (Unevaluating β h) β e h s) (hr : u.raises? = some cause) :
    ∃ w callers, u = State.returning w (suspended e callers) (.ok (.error cause)) ∧
      ∀ hook, cause = .hook hook → Refused β e s hook := by
  cases hu with
  | working w job callers =>
    rw [raises?_job] at hr
    cases hr
  | @returning r w callers hrefused =>
    obtain rfl := raises?_returning.mp hr
    refine ⟨w, callers, rfl, ?_⟩
    rintro hook rfl
    exact hrefused hook rfl
  | deciding ho hx =>
    have hkind := ha _ _ _ _ ho _ hx
    exact absurd (hr.symm.trans (raises?_of_kind hkind)) nofun
  | decided => exact absurd (hr.symm.trans (raises?_of_kind nofun)) nofun

theorem offers (hu : Stage β e s u) (ha : ∀ h, Along (Unevaluating β h) β e h s)
    {stack : Stack H .evaluation .evaluation} (hstep : u.step β = .running (offer w e h f stack)) :
    e.index < w.evaluators.cells.size ∧ ∃ callers, stack = suspended e callers := by
  have hevent := event?_eq_frame_iff.mpr ⟨w, stack, hstep⟩
  cases hu with
  | working v job callers =>
    have hmoved := Outcome.running.inj ((step_job v e (suspended e callers) job).symm.trans hstep)
    obtain ⟨⟨g, hm⟩, hstack⟩ := enters_of_moved hmoved
    have hlimit : 0 < (v.evaluator e).maxDepth := Nat.zero_lt_of_lt (Job.enters_iff.mp hm).2
    have hsize := World.covers_keepsEvaluators.step hstep e (World.allocated_of_maxDepth_pos hlimit)
    exact ⟨hsize.1, callers, hstack⟩
  | returning =>
    rw [event?_returning] at hevent
    cases hevent
  | deciding ho hx =>
    have hkind := ha _ _ _ _ ho _ hx
    exact absurd (hevent.symm.trans (event?_of_kind hkind)) nofun
  | decided =>
    rw [event?_returning] at hevent
    cases hevent

end Stage

section

variable {stack : Stack H .evaluation .evaluation} {v : World H}

theorem performs_offer (ha : ∀ h, Along (Unevaluating β h) β e h (job.start w e))
    (ho : Reaches β (job.start w e) (offer v e h f stack)) :
    (∃ es, Performs β (job.start w e) (es ++ [.frame (.active h) e f]) (offer v e h f stack)) ∧
      e.index < v.evaluators.cells.size ∧ ∃ callers, stack = suspended e callers := by
  rcases ho.eq_or_last with hstart | ⟨u, ⟨n, hn⟩, hstep⟩
  · exact absurd (congrArg State.kind hstart) nofun
  · have hlast := Performs.step hstep
    rw [event?_eq_frame_iff.mpr ⟨v, stack, hstep⟩] at hlast
    exact ⟨⟨_, Performs.trans ⟨n, hn, rfl⟩ hlast⟩, (Stage.of_reaches ⟨n, hn⟩).offers ha hstep⟩

theorem concludes_offer {cause : HookError} (ha : ∀ h, Along (Unevaluating β h) β e h (job.start w e))
    (ho : Reaches β (job.start w e) (offer v e h f stack))
    (hd : Finishes β (ofRequest v (.decide (.active h) f)) w' (.ok (.error cause))) :
    Concludes β e (.hook cause) (offer v e h f stack) := by
  obtain ⟨-, hsize, callers, rfl⟩ := performs_offer ha ho
  have hdecided := performs_settled (e := e) (suspended e callers) ((ha h v f _ ho).performs hd)
  obtain ⟨w₁, hends⟩ : ∃ w₁, Performs β (offer v e h f (suspended e callers)) []
      (returning w₁ .nil (.ok (.error (.hook cause)))) :=
    ⟨_, hdecided.trans (performs_failing β _ e callers (.hook cause))⟩
  obtain ⟨n, hn, hevents⟩ := hends.finishes
  obtain ⟨m, hm, hsilent⟩ := hends
  have hunseen : ∀ hook g, .frame hook e g ∉ (offer v e h f (suspended e callers)).events β m := by
    intro hook g hmem
    rw [hsilent] at hmem
    exact List.not_mem_nil hmem
  exact ⟨n, w₁, hn, hevents, frames_of_run hm hsize hunseen⟩

end

end State

open State

section

variable {d : Dispatch} {v : World H}

theorem finishes_dispatch {a : Conversion}
    (hc : Finishes β (ofRequest (w.recordTally d .intercepted) (.convert d.converter d.compiler f)) v (.ok a)) :
    Finishes β (ofRequest w (.dispatch d f)) (v.classify d f a) (.ok a.outcome) := by
  have hconvert : Reaches β (ofRequest w (.dispatch d f)) _ :=
    (Reaches.step rfl).trans (hc.under (.cons (.classify d f) .nil))
  have hclassify : (returning v (.cons (.classify d f) .nil) (.ok a)).step β =
      .running (returning (v.classify d f a) .nil (.ok a.outcome)) :=
    congrArg Outcome.running (deliver_classify v d f a .nil)
  exact (hconvert.trans (.step hclassify)).finishes finishes_returning

theorem finishes_dispatched {a : Conversion} (hh : w.handler h = .dispatch d)
    (hc : Finishes β (ofRequest (w.recordTally d .intercepted) (.convert d.converter d.compiler f)) v (.ok a)) :
    Finishes β (ofRequest w (.decide (.active h) f)) (v.classify d f a) (.ok a.outcome) :=
  (reaches_dispatch hh f).finishes (finishes_dispatch hc)

theorem dispatch_error_iff {cause : HookError} (hh : w.handler h = .dispatch d) :
    (∃ w', Finishes β (ofRequest w (.decide (.active h) f)) w' (.ok (.error cause))) ↔
      ∃ v cause', Finishes β (ofRequest (w.recordTally d .intercepted) (.convert d.converter d.compiler f)) v
        (.ok (.failed cause')) ∧ cause = .conversion cause' := by
  constructor
  · rintro ⟨w', hd⟩
    obtain ⟨v, r, hc, hrest⟩ := finishes_under_iff.mp ((reaches_dispatched hh f).finishes_iff.mp hd)
    cases r with
    | error panic =>
      have hdropped : Finishes β (returning v (.cons (.classify d f) .nil) (.error panic)) v (.error panic) := ⟨2, rfl⟩
      cases (hrest.unique hdropped).2
    | ok a =>
      have ha := (hd.unique (finishes_dispatched hh hc)).2
      cases a with
      | failed cause' =>
        cases ha
        exact ⟨v, cause', hc, rfl⟩
      | _ => cases ha
  · rintro ⟨v, cause', hc, rfl⟩
    exact ⟨_, finishes_dispatched hh hc⟩

end

structure OfferSettles (β : Behaviour H) (e : EvaluatorId) (s : State H .evaluation) (v : World H) (h : HandlerId)
    (f : Frame) (stack : Stack H .evaluation .evaluation) : Prop where
  last : ∃ es, Performs β s (es ++ [.frame (.active h) e f]) (offer v e h f stack)
  fails : ∀ v' cause, Finishes β (ofRequest v (.decide (.active h) f)) v' (.ok (.error cause)) →
    Concludes β e (.hook cause) (offer v e h f stack)
  dispatch_fails_iff : ∀ d, v.handler h = .dispatch d → ∀ cause,
    (∃ v', Finishes β (ofRequest v (.decide (.active h) f)) v' (.ok (.error cause))) ↔
      ∃ v' cause', Finishes β (ofRequest (v.recordTally d .intercepted) (.convert d.converter d.compiler f)) v'
        (.ok (.failed cause')) ∧ cause = .conversion cause'
  declined_runs : ∀ d, v.handler h = .dispatch d → ∀ v' reason,
    Finishes β (ofRequest (v.recordTally d .intercepted) (.convert d.converter d.compiler f)) v'
      (.ok (.declined reason)) → ∃ v'', Reaches β (offer v e h f stack) ⟨v'', _, stack, .run e (.start f)⟩

structure EndsWithFirstFailure (β : Behaviour H) (e : EvaluatorId) (s : State H .evaluation) : Prop where
  error_iff : ∀ cause, (∃ w', Finishes β s w' (.ok (.error cause))) ↔ ∃ u, Reaches β s u ∧ u.raises? = some cause
  concludes : ∀ cause u, Reaches β s u → u.raises? = some cause → Concludes β e cause u
  hook_error_iff : ∀ cause, (∃ w', Finishes β s w' (.ok (.error (.hook cause)))) ↔ Refused β e s cause
  offers : ∀ v h f stack, Reaches β s (offer v e h f stack) → OfferSettles β e s v h f stack

theorem offerSettles (ha : ∀ h, Along (Unevaluating β h) β e h (job.start w e)) {v : World H} {h : HandlerId}
    {stack : Stack H .evaluation .evaluation} (ho : Reaches β (job.start w e) (offer v e h f stack)) :
    OfferSettles β e (job.start w e) v h f stack where
  last := (performs_offer ha ho).1
  fails _ _ hd := concludes_offer ha ho hd
  dispatch_fails_iff _ hh _ := dispatch_error_iff hh
  declined_runs d hh v' reason hc := by
    obtain ⟨n, hn, -⟩ := performs_settled (e := e) stack ((ha h v f _ ho).performs (finishes_dispatched hh hc))
    exact ⟨_, n, hn⟩

/-- If hooks evaluate nothing themselves, then the first error in a frame, at any depth, is what the evaluation comes
to, and nothing more is to be seen of it. -/
theorem first_failure_ends_evaluation (ha : ∀ h, Along (Unevaluating β h) β e h (job.start w e)) :
    EndsWithFirstFailure β e (job.start w e) := by
  have hraised (cause : EvalError) (u : State H .evaluation) (hu : Reaches β (job.start w e) u)
      (hr : u.raises? = some cause) : Concludes β e cause u ∧
        ∀ hook, cause = .hook hook → Refused β e (job.start w e) hook := by
    obtain ⟨v, callers, rfl, hrefused⟩ := (Stage.of_reaches hu).raises ha hr
    exact ⟨concludes_returning β v e callers cause, hrefused⟩
  have hends (cause : EvalError) (w' : World H) (hf : Finishes β (job.start w e) w' (.ok (.error cause))) :
      ∃ u, Reaches β (job.start w e) u ∧ u.raises? = some cause :=
    ⟨_, hf.reaches, raises?_returning.mpr rfl⟩
  refine ⟨fun cause => ⟨?_, ?_⟩, fun cause u hu hr => (hraised cause u hu hr).1, fun cause => ⟨?_, ?_⟩,
    fun _ _ _ _ ho => offerSettles ha ho⟩
  · rintro ⟨w', hf⟩
    exact hends cause w' hf
  · rintro ⟨u, hu, hr⟩
    obtain ⟨⟨n, w', hn, -⟩, -⟩ := hraised cause u hu hr
    exact ⟨w', hu.finishes ⟨n, hn⟩⟩
  · rintro ⟨w', hf⟩
    obtain ⟨u, hu, hr⟩ := hends _ w' hf
    exact (hraised _ u hu hr).2 cause rfl
  · rintro ⟨v, h, f, stack, v', ho, hd⟩
    obtain ⟨n, w', hn, -⟩ := concludes_offer ha ho hd
    exact ⟨w', ho.finishes ⟨n, hn⟩⟩

theorem unevaluating_of_run {n : Nat} {r : Except (Panic H) (Except HookError Decision)}
    (hn : (ofRequest w (.decide (.active h) f)).run β n = .finished w' r)
    (hk : ∀ u ∈ (ofRequest w (.decide (.active h) f)).visited β n, u.kind ≠ .evaluation) : Unevaluating β h w f :=
  fun u hu => hk u (visited_of_reaches hn hu)

theorem mem_events_of_offer {s : State H final} {n : Nat} {v : World H} {stack : Stack H .evaluation final}
    {r : Except (Panic H) (final.Result H)} (hn : s.run β n = .finished w r) (hs : s.kind = .evaluation)
    (ho : Reaches β s (offer v e h f stack)) : .frame (.active h) e f ∈ s.events β n := by
  rcases ho.eq_or_last with rfl | ⟨u, hu, hstep⟩
  · cases hs
  · exact List.mem_filterMap.mpr ⟨u, visited_of_reaches hn hu, event?_eq_frame_iff.mpr ⟨v, stack, hstep⟩⟩

namespace ThreeAnswers

def nested : Behaviour host :=
  behaviour fun f => .done (if f.depth = 0 then .declined "outermost" else .failed (.internal "nested"))

theorem nested_unevaluating {w : World host} {f : Frame} (hh : w.handler ⟨0⟩ = .dispatch dispatch)
    (hc : w.converter ⟨0⟩ = .custom ()) : Unevaluating nested ⟨0⟩ w f := by
  have hc' : (w.recordTally dispatch .intercepted).converter ⟨0⟩ = .custom () :=
    (World.converter_of_converters (World.converters_recordTally ..) _).trans hc
  have hrun : ∃ w' r, (ofRequest w (.decide (.active ⟨0⟩) f)).run nested 6 = .finished w' r := by
    simp only [run, ofRequest, step, begin, hh]
    rw [show dispatch.converter = ⟨0⟩ from rfl, hc']
    simp only [nested, behaviour, interpret, deliver_classify]
    exact ⟨_, _, rfl⟩
  obtain ⟨w', r, hrun⟩ := hrun
  refine unevaluating_of_run hrun ?_
  simp only [visited, ofRequest, step, begin, hh]
  rw [show dispatch.converter = ⟨0⟩ from rfl, hc']
  simp only [nested, behaviour, interpret, deliver_classify]
  simp

theorem first_failure_ends_evaluation_nested :
    ∃ v stack w' n, Reaches nested (call world 0) (offer v ⟨0⟩ ⟨0⟩ SingleHook.innerFrame stack) ∧
      (offer v ⟨0⟩ ⟨0⟩ SingleHook.innerFrame stack).run nested n =
        .finished w' (.ok (.error (.hook (.conversion (.internal "nested"))))) ∧
      (offer v ⟨0⟩ ⟨0⟩ SingleHook.innerFrame stack).events nested n = [] ∧ w'.frames ⟨0⟩ = 2 := by
  have hn : (call world 0).run nested 40 = .finished _ (.ok (.error (.hook _))) := rfl
  have ha : ∀ h, Along (Unevaluating nested h) nested ⟨0⟩ h ((Job.call 0 #[]).start world ⟨0⟩) := by
    intro h v f stack ho
    have hone : (call world 0).events nested 40 |>.all fun
      | .frame (.active h) _ _ => h = ⟨0⟩
      | _ => true := rfl
    obtain rfl : h = ⟨0⟩ := of_decide_eq_true (List.all_eq_true.mp hone _ (mem_events_of_offer hn rfl ho))
    have hhandler := (World.covers_keepsHandlers.reaches ho ⟨0⟩ (by decide : 0 < 1)).2
    have hconverter := (World.covers_keepsConverters.reaches ho ⟨0⟩ (by decide : 0 < 1) (by nofun)).2
    exact nested_unevaluating hhandler hconverter
  have ho : Reaches nested (call world 0) (offer _ ⟨0⟩ ⟨0⟩ SingleHook.innerFrame _) := ⟨11, rfl⟩
  have hoffer := (first_failure_ends_evaluation ha).offers _ _ _ _ ho
  obtain ⟨v', hd⟩ := (hoffer.dispatch_fails_iff dispatch rfl _).mpr ⟨_, .internal "nested", ⟨6, rfl⟩, rfl⟩
  obtain ⟨n, w', hend, hevents, hframes⟩ := hoffer.fails v' _ hd
  exact ⟨_, _, w', n, ho, hend, hevents, hframes⟩

end ThreeAnswers

end Interception
