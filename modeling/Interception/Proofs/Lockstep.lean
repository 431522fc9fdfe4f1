import Interception.Proofs.Events
import Interception.Proofs.Transitions

/-!
Two runs side by side. If two worlds look alike wherever the machine reads them, and stay so under whatever it does to
both, then the runs from them go the same way step by step, as long as no script goes by what sets the worlds apart.
-/

namespace Interception

variable {H : Host} {k l final : Kind} {β : Behaviour H}

/-- What scripts may go by: the commands that they may use, and the answers that they must treat as the same. -/
structure View (H : Host) where
  allows : Command H → Prop
  same : (c : Command H) → c.Answer → c.Answer → Prop

def Script.Respects {α : Type} (V : View H) : Script H α → Prop
  | done _ | panic _ => True
  | act c next => V.allows c ∧ (∀ a a', V.same c a a' → next a = next a') ∧ ∀ a, (next a).Respects V
  | ask _ next => ∀ a, (next a).Respects V

def Script.Heeds {α : Type} (V : View H) : Script H α → Prop
  | act c next => V.allows c ∧ ∀ a a', V.same c a a' → next a = next a'
  | done _ | panic _ | ask _ _ => True

structure Behaviour.Respects (β : Behaviour H) (V : View H) : Prop where
  decide : ∀ d f, (β.decide d f).Respects V
  convert : ∀ c f compiler, (β.convert c f compiler).Respects V
  compile : ∀ c code, (β.compile c code).Respects V
  perform : ∀ b, (β.perform b).Respects V

variable {V : View H}

theorem Script.Respects.heeds {α : Type} {p : Script H α} (h : p.Respects V) : p.Heeds V := by
  cases p with
  | act c next => exact ⟨h.1, h.2.1⟩
  | _ => trivial

theorem Behaviour.Respects.scripts (hβ : β.Respects V) {q : Request H k} {p : Script H (k.Result H)}
    (hp : β.Scripts q p) : p.Respects V := by
  cases hp with
  | decide => exact hβ.decide _ _
  | convert => exact hβ.convert _ _ _
  | compile => exact hβ.compile _ _
  | perform => exact hβ.perform _

def Task.Respects (V : View H) : Task H k → Prop
  | .script p => p.Respects V
  | _ => True

def Pending.Respects (V : View H) : Pending H k l → Prop
  | .proceed next => ∀ a, (next a).Respects V
  | _ => True

def Stack.Respects (V : View H) : {k : Kind} → Stack H k final → Prop
  | _, .nil => True
  | _, .cons p stack => p.Respects V ∧ stack.Respects V

theorem Task.respects_of_plain {task : Task H k} (h : task.Plain) : task.Respects V := by
  cases task with
  | script p => exact h.elim
  | _ => trivial

theorem Pending.respects_of_plain {p : Pending H k l} (h : p.Plain) : p.Respects V := by
  cases p with
  | proceed next => exact h.elim
  | _ => trivial

def State.Respects (V : View H) (s : State H final) : Prop := s.task.Respects V ∧ s.stack.Respects V

theorem State.Respects.step {s t : State H final} (hβ : β.Respects V) (hs : s.Respects V)
    (hst : s.step β = .running t) : t.Respects V := by
  obtain ⟨ms, hms⟩ := transition_of_step hst
  obtain ⟨htask, hstack⟩ := hs
  cases hms with
  | turn _ ht => exact ⟨Task.respects_of_plain ht, hstack⟩
  | push _ hp ht => exact ⟨Task.respects_of_plain ht, Pending.respects_of_plain hp, hstack⟩
  | pop _ _ ht => exact ⟨Task.respects_of_plain ht, hstack.2⟩
  | host hp => exact ⟨hβ.scripts hp, hstack⟩
  | rescue => exact ⟨trivial, trivial, hstack⟩
  | command => exact ⟨htask.2.2 _, hstack⟩
  | ask => exact ⟨trivial, htask, hstack⟩
  | proceed => exact ⟨hstack.1 _, hstack.2⟩
  | offer => exact ⟨trivial, trivial, trivial, hstack⟩
  | within => exact ⟨trivial, trivial, hstack⟩
  | @close k w s displaced stack r => exact ⟨Task.respects_of_plain (Task.plain_ofResult r), hstack.2⟩

def State.Heeds (V : View H) : State H final → Prop
  | ⟨_, _, _, .script p⟩ => p.Heeds V
  | _ => True

theorem State.Respects.heeds {s : State H final} (h : s.Respects V) : s.Heeds V := by
  obtain ⟨w, j, stack, task⟩ := s
  cases task with
  | script p => exact Script.Respects.heeds h.1
  | _ => trivial

theorem State.Respects.reaches {s t : State H final} (hβ : β.Respects V) (hs : s.Respects V) (h : Reaches β s t) :
    t.Respects V := h.induct (I := State.Respects V) (fun _ _ huv hu => hu.step hβ huv) hs

inductive State.Matches (R : World H → World H → Prop) : State H final → State H final → Prop
  | mk {k : Kind} {w v : World H} {stack : Stack H k final} {task : Task H k} (h : R w v) :
    Matches R ⟨w, k, stack, task⟩ ⟨v, k, stack, task⟩

inductive Outcome.Matches (R : World H → World H → Prop) : Outcome H final → Outcome H final → Prop
  | running {s t : State H final} (h : s.Matches R t) : Matches R (.running s) (.running t)
  | finished {w v : World H} {r : Except (Panic H) (final.Result H)} (h : R w v) :
    Matches R (.finished w r) (.finished v r)

theorem Outcome.Matches.cases {R : World H → World H → Prop} {o o' : Outcome H final} (h : o.Matches R o') :
    (∃ s t, o = .running s ∧ o' = .running t ∧ s.Matches R t) ∨
      ∃ w v r, o = .finished w r ∧ o' = .finished v r ∧ R w v := by
  cases h with
  | running h => exact .inl ⟨_, _, rfl, rfl, h⟩
  | finished h => exact .inr ⟨_, _, _, rfl, rfl, h⟩

theorem State.Finishes.matched {R : World H → World H → Prop} {s t : State H final} {w : World H}
    {r : Except (Panic H) (final.Result H)} (h : Finishes β s w r) (hm : ∀ n, (s.run β n).Matches R (t.run β n)) :
    ∃ v, R w v ∧ Finishes β t v r := by
  obtain ⟨n, hn⟩ := h
  rcases (hm n).cases with ⟨_, _, hs, -⟩ | ⟨w₁, v, r₁, hs, ht, hv⟩
  · cases hn.symm.trans hs
  · cases hn.symm.trans hs
    exact ⟨v, hv, n, ht⟩

theorem State.Finishes.matched_back {R : World H → World H → Prop} {s t : State H final} {v : World H}
    {r : Except (Panic H) (final.Result H)} (h : Finishes β t v r) (hm : ∀ n, (s.run β n).Matches R (t.run β n)) :
    ∃ w, R w v ∧ Finishes β s w r := by
  obtain ⟨n, hn⟩ := h
  rcases (hm n).cases with ⟨_, _, -, ht, -⟩ | ⟨w, v₁, r₁, hs, ht, hw⟩
  · cases hn.symm.trans ht
  · cases hn.symm.trans ht
    exact ⟨w, hw, n, hs⟩

structure View.Keeps (V : View H) (R : World H → World H → Prop) : Prop where
  slot : ∀ {w v}, R w v → ∀ s, v.slot s = w.slot s
  handler : ∀ {w v}, R w v → ∀ h, v.handler h = w.handler h
  converter : ∀ {w v}, R w v → ∀ c, v.converter c = w.converter c
  compiler : ∀ {w v}, R w v → ∀ b, v.compiler b = w.compiler b
  setup : ∀ {w v}, R w v → ∀ e, (v.evaluator e).setup = (w.evaluator e).setup
  install : ∀ {w v}, R w v → ∀ s h, R (w.install s h) (v.install s h)
  log : ∀ {w v}, R w v → ∀ level message, R (w.log level message) (v.log level message)
  countFrame : ∀ {w v}, R w v → ∀ e, R (w.countFrame e) (v.countFrame e)
  countReplaced : ∀ {w v}, R w v → ∀ e, R (w.countReplaced e) (v.countReplaced e)
  countGuardFailure : ∀ {w v}, R w v → ∀ e, R (w.countGuardFailure e) (v.countGuardFailure e)
  setConverter : ∀ {w v}, R w v → ∀ c converter, R (w.setConverter c converter) (v.setConverter c converter)
  recordTally : ∀ {w v}, R w v → ∀ d event, R (w.recordTally d event) (v.recordTally d event)
  command : ∀ {w v}, R w v → ∀ c, V.allows c → V.same c (c.run w).1 (c.run v).1 ∧ R (c.run w).2 (c.run v).2

namespace View.Keeps

open State

variable {R : World H → World H → Prop} (hV : V.Keeps R) {w v : World H} {s t : State H final}

include hV

theorem openGuard (h : R w v) (s : SlotId) (hook : Hook) : R (w.openGuard s hook) (v.openGuard s hook) := by
  rw [World.openGuard, World.openGuard, hV.slot h]
  exact hV.log (hV.install h s hook) ..

theorem closeGuard (h : R w v) (s : SlotId) (hook : Hook) : R (w.closeGuard s hook) (v.closeGuard s hook) :=
  hV.install (hV.log h ..) s hook

theorem program (h : R w v) (e : EvaluatorId) : (v.evaluator e).program = (w.evaluator e).program :=
  congrArg Prod.fst (hV.setup h e)

theorem evaluator_slot (h : R w v) (e : EvaluatorId) : (v.evaluator e).slot = (w.evaluator e).slot :=
  congrArg (fun p => p.2.1) (hV.setup h e)

theorem maxDepth (h : R w v) (e : EvaluatorId) : (v.evaluator e).maxDepth = (w.evaluator e).maxDepth :=
  congrArg (fun p => p.2.2) (hV.setup h e)

theorem move (h : R w v) (e : EvaluatorId) (job : Job) : v.move e job = w.move e job := by
  rw [World.move, World.move, hV.program h, hV.maxDepth h]

theorem brings (h : R w v) {q : Request H k} {p : Script H (k.Result H)} (hp : w.Brings β q p) : v.Brings β q p := by
  cases hp with
  | decide hh => exact .decide ((hV.handler h _).trans hh)
  | convert hc => exact .convert ((hV.converter h _).trans hc)
  | compile hb => exact .compile ((hV.compiler h _).trans hb)
  | perform => exact .perform

theorem offering (h : R w v) (e : EvaluatorId) : R (w.offering e) (v.offering e) := by
  rw [World.offering, World.offering, hV.evaluator_slot h]
  exact hV.openGuard (hV.countFrame h e) ..

theorem settle (h : R w v) (e : EvaluatorId) (f : Frame) (d : Except (Panic H) (Except HookError Decision)) :
    R (w.settle e f d).world (v.settle e f d).world ∧ (v.settle e f d).task e = (w.settle e f d).task e := by
  have hs := w.settles e f d
  generalize w.settle e f d = s at hs ⊢
  cases hs with
  | panics => exact ⟨h, rfl⟩
  | fails => exact ⟨h, rfl⟩
  | falls => exact ⟨h, rfl⟩
  | replaces hr ha =>
    rw [World.settle_eq_iff.mpr (.replaces hr ha)]
    exact ⟨hV.countReplaced h e, rfl⟩
  | strands hr ha =>
    rw [World.settle_eq_iff.mpr (.strands hr ha)]
    exact ⟨hV.countReplaced h e, rfl⟩
  | misses hr =>
    rw [World.settle_eq_iff.mpr (.misses hr)]
    exact ⟨hV.log (hV.countGuardFailure h e) .., rfl⟩

theorem turns (h : R w v) {w' : World H} {stack : Stack H k final} {task task' : Task H k}
    (hst : Turns β w task w' task') (hs : State.Heeds V ⟨w, k, stack, task⟩) :
    ∃ v', Turns β v task v' task' ∧ R w' v' := by
  cases hst with
  | ends hm => exact ⟨v, .ends ((hV.move h ..).trans hm), h⟩
  | becomes hm => exact ⟨v, .becomes ((hV.move h ..).trans hm), h⟩
  | enters hlimit hslot =>
    rw [← hV.maxDepth h] at hlimit
    rw [← hV.evaluator_slot h, ← hV.slot h] at hslot
    exact ⟨_, .enters hlimit hslot, hV.countFrame h _⟩
  | passes => exact ⟨v, .passes, h⟩
  | dispatches hh => exact ⟨v, .dispatches ((hV.handler h _).trans hh), h⟩
  | brings hp => exact ⟨v, .brings (hV.brings h hp), h⟩
  | refuses hc hr => exact ⟨v, .refuses ((hV.converter h _).trans hc) hr, h⟩
  | recalls hc hl => exact ⟨_, .recalls ((hV.converter h _).trans hc) hl, hV.setConverter h ..⟩
  | compiles hb => exact ⟨_, .compiles ((hV.compiler h _).trans hb), hV.log h ..⟩
  | fails hb => exact ⟨v, .fails ((hV.compiler h _).trans hb), h⟩
  | returns => exact ⟨v, .returns, h⟩
  | panics => exact ⟨v, .panics, h⟩
  | @acts k c next =>
    have hnext : Script.Heeds V (.act c next) := hs
    obtain ⟨hsame, hworlds⟩ := hV.command h c hnext.1
    rw [hnext.2 _ _ hsame]
    exact ⟨_, .acts, hworlds⟩

theorem pushes (h : R w v) {w' : World H} {task : Task H l} {p : Pending H k l} {task' : Task H k}
    (hst : Pushes w task w' p task') : ∃ v', Pushes v task v' p task' ∧ R w' v' := by
  cases hst with
  | calls hm => exact ⟨v, .calls ((hV.move h ..).trans hm), h⟩
  | dispatches => exact ⟨_, .dispatches, hV.recordTally h ..⟩
  | guards hc hr => exact ⟨v, .guards ((hV.converter h _).trans hc) hr, h⟩
  | consults hc hl => exact ⟨_, .consults ((hV.converter h _).trans hc) hl, hV.setConverter h ..⟩
  | @opens s hook b =>
    rw [← hV.slot h]
    exact ⟨_, .opens, hV.openGuard h s hook⟩
  | rescues => exact ⟨v, .rescues, h⟩
  | asks => exact ⟨v, .asks, h⟩

theorem pops (h : R w v) {w' : World H} {p : Pending H k l} {r : Except (Panic H) (k.Result H)} {task' : Task H l}
    (hst : Pops w p r w' task') : ∃ v', Pops v p r v' task' ∧ R w' v' := by
  cases hst with
  | closes => exact ⟨_, .closes, hV.closeGuard h ..⟩
  | resumes => exact ⟨v, .resumes, h⟩
  | aborts hr => exact ⟨v, .aborts hr, h⟩
  | @settles e f d =>
    obtain ⟨hworlds, htask⟩ := hV.settle h e f d
    exact ⟨_, htask ▸ .settles, hworlds⟩
  | replaces => exact ⟨_, .replaces, hV.recordTally h ..⟩
  | declines => exact ⟨_, .declines, hV.recordTally (hV.log h ..) ..⟩
  | fails => exact ⟨_, .fails, hV.recordTally h ..⟩
  | remembers hc => exact ⟨_, .remembers ((hV.converter h _).trans hc), hV.setConverter h ..⟩
  | strays hc => exact ⟨v, .strays fun inner cache hv => hc inner cache ((hV.converter h _).symm.trans hv), h⟩
  | converts => exact ⟨v, .converts, h⟩
  | breaks => exact ⟨v, .breaks, h⟩
  | proceeds => exact ⟨v, .proceeds, h⟩
  | rescues => exact ⟨v, .rescues, h⟩
  | drops hp => exact ⟨v, .drops hp, h⟩

theorem step (h : s.Matches R t) (hs : s.Heeds V) : (s.step β).Matches R (t.step β) := by
  cases hst : s.step β with
  | finished w r =>
    obtain rfl := eq_returning_of_step hst
    cases h with
    | @mk _ _ v _ _ h =>
      rw [show State.step β ⟨v, _, .nil, .ofResult r⟩ = .finished v r from step_returning ..]
      exact .finished h
  | running u =>
    cases step_iff.mp hst with
    | turn hturn =>
      cases h with
      | mk h =>
        obtain ⟨v', hv, hworlds⟩ := hV.turns h hturn hs
        rw [hv.step]
        exact .running (.mk hworlds)
    | push hpush =>
      cases h with
      | mk h =>
        obtain ⟨v', hv, hworlds⟩ := hV.pushes h hpush
        rw [hv.step]
        exact .running (.mk hworlds)
    | @offer w e f hook stack hlimit hslot =>
      cases h with
      | @mk _ _ v _ _ h =>
        rw [← hV.maxDepth h] at hlimit
        rw [← hV.evaluator_slot h, ← hV.slot h] at hslot
        rw [step_iff.mpr (.offer hlimit hslot)]
        simp only [offer, World.evaluator_slot_offering, hV.evaluator_slot h]
        exact .running (.mk (hV.offering h e))
    | @pop k l w w' stack p r task' hpop =>
      cases h with
      | @mk _ _ v _ _ h =>
        obtain ⟨v', hv, hworlds⟩ := hV.pops h hpop
        rw [show State.step β ⟨v, _, .cons p stack, .ofResult r⟩ = _ from hv.step stack]
        exact .running (.mk hworlds)

theorem run_along (h : s.Matches R t) (hs : ∀ u, Reaches β s u → u.Heeds V) (n : Nat) :
    (s.run β n).Matches R (t.run β n) := by
  induction n generalizing s t with
  | zero => exact .running h
  | succ n ih =>
    rw [State.run, State.run]
    rcases (hV.step (β := β) h (hs s .refl)).cases with ⟨u, u', hu, hu', hm⟩ | ⟨w, v, r, hw, hv, hend⟩
    · rw [hu, hu']
      exact ih hm fun v hv => hs v ((Reaches.step hu).trans hv)
    · rw [hw, hv]
      exact .finished hend

theorem run (hβ : β.Respects V) (h : s.Matches R t) (hs : s.Respects V) (n : Nat) :
    (s.run β n).Matches R (t.run β n) := hV.run_along h (fun _ hu => (hs.reaches hβ hu).heeds) n

theorem event? (h : s.Matches R t) : t.event? = s.event? := by
  cases h with
  | @mk k w v stack task h =>
    cases task with
    | request q =>
      cases q with
      | evaluateFrame e f => simp only [State.event?, hV.maxDepth h, hV.slot h, hV.evaluator_slot h]
      | _ => rfl
    | _ => rfl

theorem events_along (h : s.Matches R t) (hs : ∀ u, Reaches β s u → u.Heeds V) (n : Nat) :
    t.events β n = s.events β n := by
  induction n generalizing s t with
  | zero => rfl
  | succ n ih =>
    rcases (hV.step (β := β) h (hs s .refl)).cases with ⟨u, u', hu, hu', hm⟩ | ⟨w, v, r, hw, hv, -⟩
    · have hrest := ih hm fun v hv => hs v ((Reaches.step hu).trans hv)
      simp only [State.events] at hrest
      simp only [State.events, visited_succ hu, visited_succ hu', List.filterMap_cons, hV.event? h, hrest]
    · simp only [State.events, visited, hw, hv, List.filterMap_cons, hV.event? h]

theorem events (hβ : β.Respects V) (h : s.Matches R t) (hs : s.Respects V) (n : Nat) :
    t.events β n = s.events β n := hV.events_along h (fun _ hu => (hs.reaches hβ hu).heeds) n

end View.Keeps

end Interception
