import Interception.Proofs.Calls
import Interception.Proofs.Events
import Interception.Proofs.Offers
import Interception.Proofs.Tallies
import Interception.Proofs.Unwinding

namespace Interception

variable {H : Host} {k l final : Kind} {β : Behaviour H} {e : EvaluatorId} {h : HandlerId} {d : Dispatch}
  {w w' w₁ : World H} {τ : TallyId} {f : Frame} {job : Job}

structure Readings where
  tally : Tally
  usage : Usage
  refusals : Nat

def Readings.intercept (x : Readings) : Readings := { x with tally := x.tally.record .intercepted }

def Readings.enter (x : Readings) (heard : Bool) (event : Tally.Event) : Readings :=
  ⟨x.tally.record event, x.usage, x.refusals + if heard ∧ event = .declined then 1 else 0⟩

namespace World

def readings (w : World H) (e : EvaluatorId) (τ : TallyId) : Readings :=
  ⟨w.tally τ, (w.evaluator e).usage, w.refusals⟩

theorem readings_of_books (h : w'.books = w.books) (e : EvaluatorId) (τ : TallyId) :
    w'.readings e τ = w.readings e τ :=
  congrArg (fun b => Readings.mk (b.2.1.get τ.index) (b.2.2.1.get e.index).usage b.2.2.2) h

theorem evaluator_of_books (h : w'.books = w.books) (e : EvaluatorId) : w'.evaluator e = w.evaluator e :=
  congrArg (fun b => b.2.2.1.get e.index) h

theorem evaluator_run (w : World H) (c : Command H) (he : e.index < w.evaluators.cells.size) :
    (c.run w).2.evaluator e = w.evaluator e := by
  cases c with
  | newEvaluator program slot maxDepth => exact Table.get_add_old _ _ (Nat.ne_of_lt he)
  | invalidate c code => exact evaluator_of_fixtures (fixtures_invalidate w c code) e
  | resetTally _ | newConverter _ | newTally => rfl
  | _ => exact evaluator_of_books (Command.books_run w id) e

theorem readings_offering (w : World H) (e : EvaluatorId) (τ : TallyId) :
    (w.offering e).readings e τ =
      { w.readings e τ with usage := { (w.evaluator e).usage with frames := (w.evaluator e).usage.frames + 1 } } := by
  rw [offering, readings_of_books (books_openGuard ..), readings, evaluator_countFrame]
  rfl

theorem evaluator_recordTally (w : World H) (d : Dispatch) (event : Tally.Event) (e : EvaluatorId) :
    (w.recordTally d event).evaluator e = w.evaluator e := evaluator_of_fixtures (fixtures_recordTally ..) e

theorem refusals_recordTally (w : World H) (d : Dispatch) (event : Tally.Event) :
    (w.recordTally d event).refusals = w.refusals := by
  unfold recordTally; split <;> rfl

theorem readings_recordTally (w : World H) (event : Tally.Event) (h : d.records τ) (e : EvaluatorId) :
    (w.recordTally d event).readings e τ = { w.readings e τ with tally := (w.tally τ).record event } := by
  rw [readings, tally_recordTally w event h, evaluator_recordTally, refusals_recordTally]
  rfl

theorem readings_run (w : World H) {c : Command H} (hc : c ≠ .resetTally τ)
    (he : e.index < w.evaluators.cells.size) : (c.run w).2.readings e τ = w.readings e τ := by
  have htally := tally_run w hc
  cases c with
  | newEvaluator program slot maxDepth =>
    rw [readings, htally, evaluator_run w _ he]
    rfl
  | resetTally _ | newConverter _ | newTally =>
    rw [readings, htally]
    rfl
  | invalidate c code =>
    simp only [Command.run]
    cases w.converter c <;> rfl
  | _ => exact readings_of_books (Command.books_run w id) e τ

end World

def Pending.Counts : Pending H k l → Prop
  | .settle _ _ | .classify _ _ => True
  | _ => False

theorem Pending.Counts.accounts {p : Pending H k l} (h : p.Counts) : p.Accounts := by
  cases p with
  | settle e f => trivial
  | classify d f => trivial
  | _ => exact h.elim

def Stack.Quiet : {k : Kind} → Stack H k final → Prop
  | _, .nil => True
  | _, .cons p stack => ¬ p.Counts ∧ stack.Quiet

namespace State

def Quiet (τ : TallyId) (s : State H final) : Prop := s.event? = none ∧ s.dispatch? = none ∧ s.resets τ = false

theorem Effect.quiet {s t : State H final} (h : Effect s t) (hs : s.Quiet τ) (hstack : s.stack.Quiet)
    (he : e.index < s.world.evaluators.cells.size) :
    t.stack.Quiet ∧ t.world.readings e τ = s.world.readings e τ := by
  obtain ⟨hevent, hdispatch, hreset⟩ := hs
  cases h with
  | turn hw => exact ⟨hstack, World.readings_of_books hw e τ⟩
  | push hw hp => exact ⟨⟨fun hc => hp hc.accounts, hstack⟩, World.readings_of_books hw e τ⟩
  | pop hw hp => exact ⟨hstack.2, World.readings_of_books hw e τ⟩
  | command => exact ⟨hstack, World.readings_run _ (resets_act_iff.mp hreset) he⟩
  | entered hlimit | offered hlimit => exact absurd ((if_pos hlimit).symm.trans hevent) (by simp)
  | settled => exact absurd trivial hstack.1
  | dispatched => cases hdispatch
  | classified => exact absurd trivial hstack.1
  | recalled => exact ⟨hstack, rfl⟩
  | consulted => exact ⟨⟨id, hstack⟩, rfl⟩
  | remembered => exact ⟨hstack.2, rfl⟩
  | strayed => exact ⟨hstack.2, rfl⟩
  | abandoned => exact ⟨hstack.2, rfl⟩

theorem quiet_run {s : State H final} {r : Except (Panic H) (final.Result H)} {n : Nat}
    (hn : s.run β n = .finished w r) (hs : s.stack.Quiet) (he : e.index < s.world.evaluators.cells.size)
    (hquiet : ∀ u ∈ s.visited β n, u.Quiet τ) : w.readings e τ = s.world.readings e τ := by
  obtain ⟨m, hm, hvisited⟩ := visited_of_run hn
  rw [hvisited] at hquiet
  have hbefore : ∀ u ∈ s.visited β m, u.Quiet τ := fun u hu => hquiet u (List.mem_append_left _ hu)
  suffices hkept : (returning w .nil r).stack.Quiet ∧ e.index < w.evaluators.cells.size ∧
      w.readings e τ = s.world.readings e τ from hkept.2.2
  refine visited_induct (I := fun _ t => t.stack.Quiet ∧ e.index < t.world.evaluators.cells.size ∧
    t.world.readings e τ = s.world.readings e τ) ?_ hbefore hm ⟨hs, he, rfl⟩
  rintro - u v hu huv ⟨hstack, hsize, hreadings⟩
  obtain ⟨hstack', hreadings'⟩ := (effect_of_step huv).quiet hu hstack hsize
  exact ⟨hstack', (World.covers_keepsEvaluators.step huv e hsize).1, hreadings'.trans hreadings⟩

end State

namespace World

theorem threshold_log (w : World H) (level : Level) (message : Message) :
    (w.log level message).threshold = w.threshold := by
  unfold log; split <;> rfl

theorem threshold_ignoresScopes : IgnoresScopes (threshold (H := H)) where
  install _ _ _ := rfl
  setScope _ _ _ := rfl
  logEntered w _ := threshold_log w ..
  logExited w _ := threshold_log w ..
  logDropped w := threshold_log w ..

theorem threshold_command (w : World H) (c : Command H) : (c.run w).2.threshold = w.threshold := by
  cases c with
  | enter s => exact threshold_ignoresScopes.enter w s
  | exit s => exact threshold_ignoresScopes.exit w s
  | drop s => exact threshold_ignoresScopes.drop w s
  | invalidate c code =>
    simp only [Command.run]
    cases w.converter c <;> rfl
  | _ => rfl

theorem covers_threshold : Covers (H := H) fun w w' => w'.threshold = w.threshold where
  refl _ := rfl
  trans h h' := h'.trans h
  install _ _ _ := rfl
  log := threshold_log
  setUsage _ _ _ := rfl
  recordTally _ _ _ := by unfold recordTally; split <;> rfl
  lookup _ _ _ _ _ _ _ := rfl
  store _ _ _ _ _ _ _ _ := rfl
  command := threshold_command

end World

open State

/-- The converter answers about the frame, and meanwhile evaluates nothing, hands nothing to a dispatcher and does not
reset the tally. -/
def Dispatch.Answers (β : Behaviour H) (d : Dispatch) (w : World H) (f : Frame) : Prop :=
  ∀ n w' r, (ofRequest (w.recordTally d .intercepted) (.convert d.converter d.compiler f)).run β n = .finished w' r →
    (∃ a, r = .ok a) ∧ ∀ u ∈ (ofRequest (w.recordTally d .intercepted)
      (.convert d.converter d.compiler f)).visited β n, u.Quiet d.tally

def Script.OnlyCommands {α : Type} (τ : TallyId) : Script H α → Prop
  | done _ => True
  | panic _ => False
  | act c next => c ≠ .resetTally τ ∧ ∀ a, (next a).OnlyCommands τ
  | ask _ _ => False

theorem Script.OnlyCommands.run_quiet {p : Script H (final.Result H)} {r : Except (Panic H) (final.Result H)} {n : Nat}
    (hp : p.OnlyCommands τ) (hn : State.run β n ⟨w, final, .nil, .script p⟩ = .finished w' r) :
    (∃ a, r = .ok a) ∧ ∀ u ∈ State.visited β n ⟨w, final, .nil, .script p⟩, u.Quiet τ := by
  induction p generalizing w n with
  | done a =>
    have hdone : State.step β ⟨w, final, .nil, .script (.done a)⟩ = .running (returning w .nil (.ok a)) := rfl
    cases n with
    | zero => exact absurd hn (by simp [run])
    | succ n =>
      rw [run_succ hdone] at hn
      rw [visited_succ hdone]
      refine ⟨⟨a, (run_returning hn).2⟩, List.forall_mem_cons.mpr ⟨⟨rfl, rfl, rfl⟩, fun u hu => ?_⟩⟩
      exact visited_returning hu ▸ ⟨rfl, rfl, rfl⟩
  | panic p => exact hp.elim
  | act c next ih =>
    have hact : State.step β ⟨w, final, .nil, .script (.act c next)⟩ =
      .running ⟨(c.run w).2, final, .nil, .script (next (c.run w).1)⟩ := rfl
    cases n with
    | zero => exact absurd hn (by simp [run])
    | succ n =>
      rw [run_succ hact] at hn
      rw [visited_succ hact]
      obtain ⟨hr, hquiet⟩ := ih _ (hp.2 _) hn
      exact ⟨hr, List.forall_mem_cons.mpr ⟨⟨rfl, rfl, resets_act_iff.mpr hp.1⟩, hquiet⟩⟩
  | ask q next => exact hp.elim

theorem answers_of_onlyCommands {s : H.Converter} (hc : w.converter d.converter = .custom s)
    (hs : (β.convert s f d.compiler).OnlyCommands d.tally) : d.Answers β w f := by
  intro n w' r hn
  have hscript : (ofRequest (w.recordTally d .intercepted) (.convert d.converter d.compiler f)).step β =
      .running ⟨w.recordTally d .intercepted, _, .nil, .script (β.convert s f d.compiler)⟩ := by
    simp only [ofRequest, step, begin, World.converter_of_converters (World.converters_recordTally ..), hc]
  cases n with
  | zero => exact absurd hn (by simp [run])
  | succ n =>
    rw [run_succ hscript] at hn
    rw [visited_succ hscript]
    obtain ⟨hr, hquiet⟩ := hs.run_quiet hn
    exact ⟨hr, List.forall_mem_cons.mpr ⟨⟨rfl, rfl, rfl⟩, hquiet⟩⟩

theorem along_answers {s : State H final} {script : H.Converter}
    (hallocated : d.converter.index < s.world.converters.cells.size)
    (hc : s.world.converter d.converter = .custom script)
    (hs : ∀ f, (β.convert script f d.compiler).OnlyCommands d.tally) : Along (d.Answers β) β e h s := by
  intro w f stack hw
  obtain ⟨-, hkept⟩ := World.covers_keepsConverters.reaches hw d.converter hallocated (by simp [hc])
  exact answers_of_onlyCommands (hkept.trans hc) (hs f)

namespace World

theorem readings_classify (w : World H) (f : Frame) (a : Conversion) (h : d.records τ) (e : EvaluatorId) :
    (w.classify d f a).readings e τ =
      (w.readings e τ).enter (w.threshold.admits d.config.declinedLevel) a.event := by
  cases a with
  | declined reason =>
    have hlog : (w.log d.config.declinedLevel (.notConverted f.name reason)).evaluator e = w.evaluator e :=
      evaluator_of_fixtures (fixtures_log ..) e
    rw [classify, readings_recordTally _ _ h, readings, tally_log, hlog, refusals_log]
    simp [Readings.enter, readings, Conversion.event, Message.refuses]
  | _ => exact (readings_recordTally w _ h e).trans (by simp [Readings.enter, readings, Conversion.event])

end World

theorem reaches_dispatched (hh : w.handler h = .dispatch d) (f : Frame) :
    Reaches β (ofRequest w (.decide (.active h) f))
      ((ofRequest (w.recordTally d .intercepted) (.convert d.converter d.compiler f)).under
        (.cons (.classify d f) .nil)) :=
  (reaches_dispatch hh f).trans (.step rfl)

theorem decide_dispatch {r : Except (Panic H) (Except HookError Decision)} (hr : d.config.recordTally)
    (hh : w.handler h = .dispatch d) (hd : Finishes β (ofRequest w (.decide (.active h) f)) w' r)
    (ha : d.Answers β w f) (he : e.index < w.evaluators.cells.size) :
    ∃ a : Conversion, r = .ok a.outcome ∧ w'.readings e d.tally =
      (w.readings e d.tally).intercept.enter (w.threshold.admits d.config.declinedLevel) a.event := by
  have hrecords : d.records d.tally := by simp [Dispatch.records, hr]
  obtain ⟨w₁, answer, ⟨n, hn⟩, hrest⟩ := finishes_under_iff.mp ((reaches_dispatched hh f).finishes_iff.mp hd)
  obtain ⟨⟨a, rfl⟩, hquiet⟩ := ha n w₁ answer hn
  have hstep : (returning w₁ (.cons (.classify d f) .nil) (.ok a)).step β =
      .running (returning (w₁.classify d f a) .nil (.ok a.outcome)) :=
    congrArg Outcome.running (deliver_classify w₁ d f a .nil)
  obtain ⟨rfl, rfl⟩ := hrest.unique ((Reaches.step hstep).finishes finishes_returning)
  have hthreshold : w₁.threshold = w.threshold := (World.covers_threshold.finishes ⟨n, hn⟩).trans
    (World.covers_threshold.recordTally w d _)
  have hkept : w₁.readings e d.tally = (w.recordTally d .intercepted).readings e d.tally :=
    quiet_run hn trivial (World.covers_keepsEvaluators.recordTally w d _ e he).1 hquiet
  refine ⟨a, rfl, ?_⟩
  rw [World.readings_classify w₁ f a hrecords, hkept, hthreshold, World.readings_recordTally w _ hrecords]
  rfl

def hookFailed : Except (Panic H) (Except EvalError Value) → Bool
  | .ok (.error (.hook _)) => true
  | _ => false

def Settled.hookFailed : Settled H → Bool
  | .runs _ _ => false
  | .ends _ r => Interception.hookFailed r

theorem hookFailed_of_ends {q : Ending} (hm : w.move e job = .ends q) : ¬ hookFailed (q.lift : Except (Panic H) _) := by
  rcases q with (cause | v) | _
  · have hown := Job.ends_own hm
    cases cause with
    | hook _ => exact hown.elim
    | _ => exact Bool.false_ne_true
  · exact Bool.false_ne_true
  · exact Bool.false_ne_true

namespace World

theorem usage_settle (w : World H) (e : EvaluatorId) (f : Frame) (a : Conversion) :
    let usage := ((w.settle e f (.ok a.outcome)).world.evaluator e).usage
    usage.frames = (w.evaluator e).usage.frames ∧
      usage.replaced + usage.guardFailures = (w.evaluator e).usage.replaced + (w.evaluator e).usage.guardFailures +
        if a.event = .replaced then 1 else 0 := by
  cases a with
  | converted r =>
    simp only [settle, Conversion.outcome, Conversion.event, if_true]
    split
    · have hcount : ((w.countReplaced e).evaluator e).usage =
          { (w.evaluator e).usage with replaced := (w.evaluator e).usage.replaced + 1 } :=
        congrArg Evaluator.usage (evaluator_setUsage_self ..)
      cases Activation.replace? r.code f <;> simp only [Settled.world, hcount, true_and] <;> omega
    · have hcount : ((w.countGuardFailure e).evaluator e).usage =
          { (w.evaluator e).usage with guardFailures := (w.evaluator e).usage.guardFailures + 1 } :=
        congrArg Evaluator.usage (evaluator_setUsage_self ..)
      simp only [Settled.world, evaluator_of_fixtures (fixtures_log ..), hcount, true_and]
      omega
  | _ => exact ⟨rfl, rfl⟩

theorem readings_settle (w : World H) (e : EvaluatorId) (f : Frame) (d : Except (Panic H) (Except HookError Decision))
    (τ : TallyId) : (w.settle e f d).world.readings e τ =
      { w.readings e τ with usage := ((w.settle e f d).world.evaluator e).usage } :=
  congrArg (fun b => Readings.mk (b.2.1.get τ.index) (b.2.2.1.get e.index).usage b.2.2.2) (books_settle w e f d)

theorem hookFailed_settle (w : World H) (e : EvaluatorId) (f : Frame) (a : Conversion) :
    (w.settle e f (.ok a.outcome)).hookFailed = decide (a.event = .failed) := by
  cases a with
  | converted r =>
    simp only [settle, Conversion.outcome]
    split
    · cases Activation.replace? r.code f <;> rfl
    · rfl
  | _ => rfl

end World

theorem Tally.record_intercepted_record (t : Tally) {event : Tally.Event} (h : event ≠ .intercepted) :
    (t.record .intercepted).record event =
      ⟨t.intercepted + 1, t.replaced + if event = .replaced then 1 else 0,
        t.declined + if event = .declined then 1 else 0, t.failed + if event = .failed then 1 else 0⟩ := by
  cases event with
  | intercepted => exact absurd rfl h
  | _ => rfl

namespace Readings

structure GrowAlike (heard : Bool) (failures : Nat) (x y : Readings) : Prop where
  intercepted : y.tally.intercepted + x.usage.frames = x.tally.intercepted + y.usage.frames
  replaced : y.tally.replaced + (x.usage.replaced + x.usage.guardFailures) =
    x.tally.replaced + (y.usage.replaced + y.usage.guardFailures)
  declined : heard → y.tally.declined + x.refusals = x.tally.declined + y.refusals
  failed : y.tally.failed = x.tally.failed + failures

namespace GrowAlike

variable {heard : Bool} {m n : Nat} {x y z : Readings}

theorem refl (heard : Bool) (x : Readings) : GrowAlike heard 0 x x := ⟨rfl, rfl, fun _ => rfl, rfl⟩

theorem trans (h : GrowAlike heard m x y) (h' : GrowAlike heard n y z) : GrowAlike heard (m + n) x z where
  intercepted := by
    have := h.intercepted
    have := h'.intercepted
    omega
  replaced := by
    have := h.replaced
    have := h'.replaced
    omega
  declined hheard := by
    have := h.declined hheard
    have := h'.declined hheard
    omega
  failed := by rw [h'.failed, h.failed, Nat.add_assoc]

theorem zero_trans (h : GrowAlike heard 0 x y) (h' : GrowAlike heard n y z) : GrowAlike heard n x z :=
  Nat.zero_add n ▸ h.trans h'

theorem frame {event : Tally.Event} {usage : Usage} (hevent : event ≠ .intercepted)
    (hframes : usage.frames = x.usage.frames + 1) (hreplaced : usage.replaced + usage.guardFailures =
      x.usage.replaced + x.usage.guardFailures + if event = .replaced then 1 else 0) :
    GrowAlike heard (if event = .failed then 1 else 0) x
      { x.intercept.enter heard event with usage } := by
  simp only [enter, intercept, Tally.record_intercepted_record _ hevent]
  refine ⟨?_, ?_, fun hheard => ?_, rfl⟩ <;> dsimp only
  · rw [hframes]
    omega
  · rw [hreplaced]
    omega
  · simp only [hheard, true_and]
    omega

end GrowAlike

end Readings

theorem settled_growAlike {d' : Except (Panic H) (Except HookError Decision)} (hr : d.config.recordTally)
    (hh : w.handler h = .dispatch d) (he : e.index < w.evaluators.cells.size) (ha : d.Answers β (w.offering e) f)
    (hd : Finishes β (ofRequest (w.offering e) (.decide (.active h) f)) w₁ d') (s : SlotId) (hook : Hook) :
    (w.readings e d.tally).GrowAlike (w.threshold.admits d.config.declinedLevel)
      (if ((w₁.closeGuard s hook).settle e f d').hookFailed then 1 else 0)
      (((w₁.closeGuard s hook).settle e f d').world.readings e d.tally) := by
  have hopened := World.fixtures_openGuard (w.countFrame e) (w.evaluator e).slot .null
  have hhandler : (w.offering e).handler h = .dispatch d := (World.handler_of_fixtures hopened h).trans hh
  have hthreshold : (w.offering e).threshold = w.threshold := World.covers_threshold.offering w e
  have hsize : e.index < (w.offering e).evaluators.cells.size :=
    (World.covers_keepsEvaluators.offering w e e he).1
  obtain ⟨a, rfl, hdecided⟩ := decide_dispatch hr hhandler hd ha hsize
  have hclosed := World.readings_of_books (World.books_closeGuard w₁ s hook) e d.tally
  rw [hdecided, hthreshold, World.readings_offering] at hclosed
  generalize w₁.closeGuard s hook = v at hclosed ⊢
  have husage : (v.evaluator e).usage = _ := congrArg Readings.usage hclosed
  obtain ⟨hframes, hreplaced⟩ := v.usage_settle e f a
  rw [husage] at hframes hreplaced
  simp only [World.readings_settle, hclosed, World.hookFailed_settle, decide_eq_true_eq]
  exact .frame a.event_ne_intercepted hframes hreplaced

structure World.Overseen (w : World H) (e : EvaluatorId) (h : HandlerId) (d : Dispatch) (heard : Bool) : Prop where
  slot : w.slot (w.evaluator e).slot = .active h
  allocated : h.index < w.handlers.cells.size
  handler : w.handler h = .dispatch d
  heard : w.threshold.admits d.config.declinedLevel = heard

theorem World.Overseen.of_reaches {s t : State H final} {heard : Bool} (hs : s.world.Overseen e h d heard)
    (ht : Reaches β s t) (hr : s.world.Restores e t.world) : t.world.Overseen e h d heard := by
  obtain ⟨hallocated, hhandler⟩ := World.covers_keepsHandlers.reaches ht h hs.allocated
  refine ⟨?_, hallocated, hhandler.trans hs.handler, ?_⟩
  · rw [hr.slot_eq, hr.2, hs.slot]
  · rw [World.covers_threshold.reaches ht, hs.heard]

theorem Evaluates.overseen {heard : Bool} {r : Except (Panic H) (Except EvalError Value)}
    (he : Evaluates β e w job w' r) (hw : w.Overseen e h d heard) : w'.Overseen e h d heard :=
  World.Overseen.of_reaches (s := job.start w e) hw he.finishes.reaches he.restores

theorem World.Overseen.settled {heard : Bool} {h' : HandlerId} {q : Except (Panic H) (Except HookError Decision)}
    (hw : w.Overseen e h d heard) (hr : d.config.recordTally) (ha : Along (d.Answers β) β e h (job.start w e))
    (hm : w.move e job = .enters f) (hs : w.slot (w.evaluator e).slot = .active h')
    (hq : Finishes β (ofRequest (w.offering e) (.decide (.active h') f)) w₁ q) {s : Settled H}
    (ht : (w₁.closeGuard (w.evaluator e).slot (.active h')).settle e f q = s) :
    (w.readings e d.tally).GrowAlike heard (if s.hookFailed then 1 else 0) (s.world.readings e d.tally) ∧
      s.world.Overseen e h d heard := by
  obtain rfl : h' = h := Hook.active.inj (hs.symm.trans hw.slot)
  subst ht
  constructor
  · have hlimit := (Job.enters_iff.mp hm).2
    have hsize := World.allocated_of_maxDepth_pos (w := w) (e := e) (by omega)
    exact hw.heard ▸ settled_growAlike hr hw.handler hsize (ha.offered hm hs) hq _ _
  · have hrestores := settled_restores hm hs hq
    rw [← world_settled e .nil] at hrestores ⊢
    exact World.Overseen.of_reaches (s := job.start w e) hw (reaches_settled hm hs hq .nil) hrestores

theorem Evaluates.growAlike {heard : Bool} {r : Except (Panic H) (Except EvalError Value)}
    (he : Evaluates β e w job w' r) (hr : d.config.recordTally) (hw : w.Overseen e h d heard)
    (ha : Along (d.Answers β) β e h (job.start w e)) :
    (w.readings e d.tally).GrowAlike heard (if hookFailed r then 1 else 0) (w'.readings e d.tally) := by
  induction he with
  | ends hm =>
    -- no frame was offered, so an error is the job's own
    rw [if_neg (hookFailed_of_ends hm)]
    exact .refl heard _
  | becomes hm _ ih => exact ih hw (ha.becomes hm)
  | plain _ hs => exact absurd (hs.symm.trans hw.slot) (by simp)
  | decided hm hs hd ht _ ih =>
    obtain ⟨hframe, hw₂⟩ := hw.settled hr ha hm hs hd ht
    obtain rfl := Hook.active.inj (hs.symm.trans hw.slot)
    exact hframe.zero_trans (ih hw₂ (ha.settled hm hs hd ht))
  | dropped hm hs hd ht => exact (hw.settled hr ha hm hs hd ht).1
  | returns hm hc _ ihc ihb =>
    -- the callee has returned a value, and so without a failure
    have hcallee := ihc hw (ha.callee hm)
    exact hcallee.zero_trans (ihb (hc.overseen hw) (ha.resumed hm hc))
  | aborts hm _ _ ih => exact ih hw (ha.callee hm)

inductive Evaluations (Q : World H → Frame → Prop) (β : Behaviour H) (e : EvaluatorId) (h : HandlerId) :
    World H → List Job → List (Except (Panic H) (Except EvalError Value)) → World H → Prop
  | nil {w : World H} : Evaluations Q β e h w [] [] w
  | cons {w w₁ w' : World H} {job : Job} {r : Except (Panic H) (Except EvalError Value)} {jobs : List Job}
    {rs : List (Except (Panic H) (Except EvalError Value))} (ha : Along Q β e h (job.start w e))
    (hf : Finishes β (job.start w e) w₁ r) (hs : Evaluations Q β e h w₁ jobs rs w') :
    Evaluations Q β e h w (job :: jobs) (r :: rs) w'

theorem Evaluations.growAlike {heard : Bool} {jobs : List Job} {rs : List (Except (Panic H) (Except EvalError Value))}
    (hs : Evaluations (d.Answers β) β e h w jobs rs w') (hr : d.config.recordTally) (hw : w.Overseen e h d heard) :
    (w.readings e d.tally).GrowAlike heard (rs.countP hookFailed) (w'.readings e d.tally) := by
  induction hs with
  | nil => exact .refl heard _
  | cons ha hf _ ih =>
    have he := finishes_iff_evaluates.mp hf
    rw [List.countP_cons, Nat.add_comm]
    exact (he.growAlike hr hw ha).trans (ih (he.overseen hw))

structure Accounts (β : Behaviour H) : Prop where
  balanced : ∀ {final : Kind} {s t : State H final} {n : Nat} {τ : TallyId}, s.run β n = .running t →
    (∀ u ∈ s.visited β n, u.resets τ = false) →
    (s.world.tally τ).intercepted = (s.world.tally τ).settled + s.stack.handling τ →
    (t.world.tally τ).intercepted = (t.world.tally τ).settled + t.stack.handling τ + s.abandonments β τ n
  untouched : ∀ {final : Kind} {s t : State H final} {n : Nat} {τ : TallyId}, s.run β n = .running t →
    (∀ u ∈ s.visited β n, u.resets τ = false) → s.stack.handling τ = 0 →
    (∀ u ∈ s.visited β n, ∀ d ∈ u.dispatch?, d.records τ = false) → t.world.tally τ = s.world.tally τ
  alike : ∀ {w : World H} {e h} {d : Dispatch} {heard}, w.Overseen e h d heard → d.config.recordTally →
    ∀ {jobs rs w'}, Evaluations (d.Answers β) β e h w jobs rs w' →
      (w.readings e d.tally).GrowAlike heard (rs.countP hookFailed) (w'.readings e d.tally)
  failures : ∀ {w : World H} {e h} {d : Dispatch} {heard}, w.Overseen e h d heard → d.config.recordTally →
    ∀ {job : Job} {w' r}, Along (d.Answers β) β e h (job.start w e) → Finishes β (job.start w e) w' r →
      (w'.tally d.tally).failed = (w.tally d.tally).failed + if hookFailed r then 1 else 0

/-- Every frame that is intercepted for a tally is accounted for in it, unless it is still being handled or a panic has
ended that. Under one dispatcher whose converter always answers without evaluating, the usage of the evaluator and the
journal tell the same. -/
theorem tallies_account (β : Behaviour H) : Accounts β where
  balanced hn hr := tally_balanced hn hr
  untouched hn hr hidle hd := tally_untouched hn hidle fun u hu => ⟨hr u hu, hd u hu⟩
  alike hw hr _ _ _ hs := hs.growAlike hr hw
  failures hw hr _ _ _ ha hf := ((finishes_iff_evaluates.mp hf).growAlike hr hw ha).failed

namespace ThreeAnswers

abbrev host : Host := ⟨Unit, Empty, Unit, Empty, Empty, Unit, Empty, Empty⟩

def behaviour (convert : Frame → Script host Conversion) : Behaviour host :=
  ⟨nofun, fun _ f _ => convert f, nofun, nofun⟩

def dispatch : Dispatch := ⟨⟨0⟩, ⟨0⟩, {}, ⟨0⟩⟩

def world : World host :=
  { slots := ⟨#[.active ⟨0⟩]⟩
    handlers := ⟨#[.dispatch dispatch]⟩
    converters := ⟨#[.custom ()]⟩
    tallies := ⟨#[{}, {}]⟩
    evaluators := ⟨#[{ program := SingleHook.program, slot := .thread, maxDepth := 2 }]⟩
    threshold := some .debug
    host := () }

def answer (f : Frame) : Conversion :=
  if f.name = "outer" then .declined "calls another function"
  else if f.depth = 1 then .converted ⟨f.code, .always⟩
  else .failed (.internal "not called")

def answering : Behaviour host := behaviour fun f => .done (answer f)

def panicking : Behaviour host := behaviour fun _ => .panic (.host ())

def call (w : World host) (function : UInt32) : State host .evaluation := (Job.call function #[]).start w ⟨0⟩

theorem answering_along {w : World host} (hallocated : 0 < w.converters.cells.size) (hc : w.converter ⟨0⟩ = .custom ())
    (function : UInt32) : Along (dispatch.Answers answering) answering ⟨0⟩ ⟨0⟩ (call w function) :=
  along_answers (s := call w function) hallocated hc fun _ => trivial

theorem tallies_account_threeAnswers :
    (∃ t, (call world 0).run panicking 7 = .running t ∧ (t.world.tally ⟨0⟩).intercepted =
        (t.world.tally ⟨0⟩).settled + t.stack.handling ⟨0⟩ + (call world 0).abandonments panicking ⟨0⟩ 7 ∧
      t.world.tally ⟨0⟩ = ⟨1, 0, 0, 0⟩ ∧ t.world.tally ⟨1⟩ = {}) ∧
    ∃ w w' : World host, (w.tally ⟨0⟩).failed = (world.tally ⟨0⟩).failed + 1 ∧
      (world.readings ⟨0⟩ ⟨0⟩).GrowAlike true 1 (w'.readings ⟨0⟩ ⟨0⟩) ∧
      w'.readings ⟨0⟩ ⟨0⟩ = ⟨⟨3, 1, 1, 1⟩, ⟨3, 1, 0⟩, 1⟩ := by
  constructor
  · have hrun : (call world 0).run panicking 7 = .running _ := rfl
    have hfirst : ∀ u ∈ (call world 0).visited panicking 7, u.resets ⟨0⟩ = false := by decide +kernel
    have hsecond : ∀ u ∈ (call world 0).visited panicking 7, u.resets ⟨1⟩ = false := by decide +kernel
    exact ⟨_, hrun, (tallies_account panicking).balanced hrun hfirst rfl, rfl,
      (tallies_account panicking).untouched hrun hsecond rfl (by decide +kernel)⟩
  · have halone : Finishes answering (call world 1) _ (.ok (.error (.hook _))) := ⟨40, rfl⟩
    have houter : Finishes answering (call world 0) _ (.ok (.ok (.bool true))) := ⟨40, rfl⟩
    have hseries : Evaluations (dispatch.Answers answering) answering ⟨0⟩ ⟨0⟩ world [.call 0 #[], .call 1 #[]]
        [.ok (.ok (.bool true)), .ok (.error (.hook (.conversion (.internal "not called"))))] _ :=
      .cons (answering_along (by exact Nat.zero_lt_one) rfl 0) houter
        (.cons (answering_along (by exact Nat.zero_lt_one) rfl 1) ⟨40, rfl⟩ .nil)
    have hworld : world.Overseen ⟨0⟩ ⟨0⟩ dispatch true := ⟨rfl, Nat.zero_lt_one, rfl, rfl⟩
    have haccounts := tallies_account answering
    have hone := haccounts.failures hworld rfl (answering_along (by exact Nat.zero_lt_one) rfl 1) halone
    exact ⟨_, _, hone, haccounts.alike hworld rfl hseries, rfl⟩

end ThreeAnswers

end Interception
