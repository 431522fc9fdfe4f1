import Mathlib.Data.List.Basic
import Interception.Proofs.Accounts
import Interception.Proofs.Reentrancy

namespace Interception

variable {H : Host} {k l final : Kind} {β : Behaviour H} {calm : H.Body → Prop} {w w' : World H}

namespace Message

def opened? : Message → Option Hook
  | scopeOpened displaced => some displaced
  | _ => none

def closed? : Message → Option Hook
  | scopeClosed restoring => some restoring
  | _ => none

def isBracket (m : Message) : Bool := m.opened?.isSome || m.closed?.isSome

/-- Each guard is closed with the hook that it was opened with, after all guards that were opened in between. -/
inductive Balanced : List Message → Prop
  | nil : Balanced []
  | guard {displaced : Hook} {inside after : List Message} (hi : Balanced inside) (ha : Balanced after) :
    Balanced (.scopeOpened displaced :: inside ++ .scopeClosed displaced :: after)

inductive Leaves : List Message → List Hook → Prop
  | balanced {ms : List Message} (h : Balanced ms) : Leaves ms []
  | opened {before inside : List Message} {displaced : Hook} {hooks : List Hook} (hb : Leaves before hooks)
    (hi : Balanced inside) : Leaves (before ++ .scopeOpened displaced :: inside) (displaced :: hooks)

variable {ms ms' : List Message} {hooks : List Hook} {displaced : Hook}

theorem Balanced.append (h : Balanced ms) (h' : Balanced ms') : Balanced (ms ++ ms') := by
  induction h with
  | nil => exact h'
  | guard hi _ _ ih =>
    rw [List.append_assoc, List.cons_append]
    exact .guard hi ih

theorem Balanced.closed_perm_opened (h : Balanced ms) : (ms.filterMap closed?).Perm (ms.filterMap opened?) := by
  induction h with
  | nil => exact .nil
  | @guard displaced inside after _ _ ihi iha =>
    have hclosed : (scopeOpened displaced :: inside ++ scopeClosed displaced :: after).filterMap closed? =
        inside.filterMap closed? ++ displaced :: after.filterMap closed? := by simp [List.filterMap_cons, closed?]
    have hopened : (scopeOpened displaced :: inside ++ scopeClosed displaced :: after).filterMap opened? =
        displaced :: (inside.filterMap opened? ++ after.filterMap opened?) := by simp [List.filterMap_cons, opened?]
    rw [hclosed, hopened]
    exact List.perm_middle.trans ((ihi.append iha).cons displaced)

theorem Balanced.closing (h : Balanced ms) {before rest : List Message}
    (hms : ms = before ++ .scopeOpened displaced :: rest) :
    ∃ inside after, rest = inside ++ .scopeClosed displaced :: after ∧ Balanced inside := by
  induction h generalizing before rest with
  | nil => simp at hms
  | @guard d inside after hi _ ihi iha =>
    cases before with
    | nil =>
      obtain ⟨rfl, rfl⟩ : d = displaced ∧ inside ++ .scopeClosed d :: after = rest := by simpa using hms
      exact ⟨inside, after, rfl, hi⟩
    | cons m before =>
      have htail : inside ++ .scopeClosed d :: after = before ++ .scopeOpened displaced :: rest :=
        (List.cons.inj hms).2
      -- it was opened either behind this guard or inside it
      rcases List.append_eq_append_iff.mp htail with ⟨_ | ⟨a, as⟩, -, hlater⟩ | ⟨_ | ⟨c, cs⟩, hinside, hrest⟩
      · simp at hlater
      · exact iha (List.cons.inj hlater).2
      · simp at hrest
      · obtain ⟨rfl, rfl⟩ := List.cons.inj hrest
        obtain ⟨inside', after', rfl, hi'⟩ := ihi hinside
        exact ⟨inside', after' ++ .scopeClosed d :: after, List.append_assoc .., hi'⟩

namespace Leaves

theorem append (h : Leaves ms hooks) (h' : Balanced ms') : Leaves (ms ++ ms') hooks := by
  cases h with
  | balanced h => exact .balanced (h.append h')
  | opened hb hi =>
    rw [List.append_assoc, List.cons_append]
    exact .opened hb (hi.append h')

theorem opens (h : Leaves ms hooks) (displaced : Hook) :
    Leaves (ms ++ [.scopeOpened displaced]) (displaced :: hooks) := .opened h .nil

theorem closes (h : Leaves ms (displaced :: hooks)) : Leaves (ms ++ [.scopeClosed displaced]) hooks := by
  cases h with
  | opened hb hi =>
    rw [List.append_assoc]
    exact hb.append (.guard hi .nil)

theorem balanced_of_nil (h : Leaves ms []) : Balanced ms := by
  cases h with
  | balanced h => exact h

end Leaves

end Message

open Message

namespace World

def brackets (w : World H) : List Message := (w.journal.records.map (·.message)).filter isBracket

theorem brackets_log (w : World H) (level : Level) (message : Message) :
    (w.log level message).brackets =
      w.brackets ++ if w.threshold.admits level && message.isBracket then [message] else [] := by
  rw [log]
  by_cases ha : w.threshold.admits level
  · rw [if_pos ha, brackets, Journal.records_push, List.map_append, List.filter_append, ha]
    cases hm : message.isBracket <;> simp [brackets, hm]
  · simp [ha]

theorem brackets_log_of_not (w : World H) (level : Level) {message : Message} (h : message.isBracket = false) :
    (w.log level message).brackets = w.brackets := by
  simp [brackets_log, h]

theorem brackets_install (w : World H) (s : SlotId) (h : Hook) : (w.install s h).brackets = w.brackets := rfl

theorem brackets_openGuard (ht : w.threshold.admits .trace) (s : SlotId) (h : Hook) :
    (w.openGuard s h).brackets = w.brackets ++ [.scopeOpened (w.slot s)] := by
  have ht' : (w.install s h).threshold.admits .trace := ht
  rw [openGuard, brackets_log, brackets_install, ht']
  rfl

theorem brackets_closeGuard (ht : w.threshold.admits .trace) (s : SlotId) (displaced : Hook) :
    (w.closeGuard s displaced).brackets = w.brackets ++ [.scopeClosed displaced] := by
  rw [closeGuard, brackets_install, brackets_log, ht]
  rfl

theorem brackets_recordTally (w : World H) (d : Dispatch) (event : Tally.Event) :
    (w.recordTally d event).brackets = w.brackets := by
  unfold recordTally; split <;> rfl

theorem brackets_settle (w : World H) (e : EvaluatorId) (f : Frame)
    (d : Except (Panic H) (Except HookError Decision)) : (w.settle e f d).world.brackets = w.brackets := by
  rcases w.settle_world e f d with hw | hw | hw <;> rw [hw]
  · rfl
  · exact brackets_log_of_not (w.countGuardFailure e) _ rfl

theorem brackets_ignoresScopes : IgnoresScopes (brackets (H := H)) where
  install _ _ _ := rfl
  setScope _ _ _ := rfl
  logEntered w _ := brackets_log_of_not w _ rfl
  logExited w _ := brackets_log_of_not w _ rfl
  logDropped w := brackets_log_of_not w _ rfl

theorem brackets_run (w : World H) (c : Command H) : (c.run w).2.brackets = w.brackets := by
  cases c with
  | enter s => exact brackets_ignoresScopes.enter w s
  | exit s => exact brackets_ignoresScopes.exit w s
  | drop s => exact brackets_ignoresScopes.drop w s
  | invalidate c code =>
    simp only [Command.run]
    cases w.converter c <;> rfl
  | note n => simp [Command.run, brackets, note, Journal.records]
  | _ => rfl

theorem covers_brackets : Covers (H := H) fun w w' => w.brackets <+: w'.brackets where
  refl _ := List.prefix_rfl
  trans := .trans
  install _ _ _ := List.prefix_rfl
  log w level message := by
    rw [brackets_log]
    exact List.prefix_append ..
  setUsage _ _ _ := List.prefix_rfl
  recordTally w d event := brackets_recordTally w d event ▸ List.prefix_rfl
  lookup _ _ _ _ _ _ _ := List.prefix_rfl
  store _ _ _ _ _ _ _ _ := List.prefix_rfl
  command w c := brackets_run w c ▸ List.prefix_rfl

end World

def Stack.displaced : {k : Kind} → Stack H k final → List Hook
  | _, .nil => []
  | _, .cons (.restore _ displaced) stack => displaced :: stack.displaced
  | _, .cons _ stack => stack.displaced

def Event.displaced? : Event → Option Hook
  | frame .null _ _ => none
  | frame (.active h) _ _ => some (.active h)
  | instruction _ _ => none

namespace State

def opening? (s : State H final) : Option Hook :=
  match s with
  | ⟨w, _, _, .request (.within s _ _)⟩ => some (w.slot s)
  | s => s.event?.bind Event.displaced?

inductive Bracketing (s t : State H final) : Prop
  | quiet (ho : s.opening? = none) (hd : t.stack.displaced = s.stack.displaced)
    (hb : t.world.brackets = s.world.brackets)
  | opens {displaced : Hook} (ho : s.opening? = some displaced)
    (hd : t.stack.displaced = displaced :: s.stack.displaced)
    (hb : t.world.brackets = s.world.brackets ++ [.scopeOpened displaced])
  | closes {displaced : Hook} (ho : s.opening? = none) (hd : s.stack.displaced = displaced :: t.stack.displaced)
    (hb : t.world.brackets = s.world.brackets ++ [.scopeClosed displaced])

theorem opening?_returning (w : World H) (stack : Stack H k final) (r : Except (Panic H) (k.Result H)) :
    (returning w stack r).opening? = none := by
  cases r <;> rfl

theorem opening?_job {job : Job} (stack : Stack H .evaluation final) {e : EvaluatorId}
    (hm : ∀ f, w.move e job ≠ .enters f) : opening? ⟨w, _, stack, job.task e⟩ = none := by
  cases job with
  | frame f => exact congrArg (·.bind Event.displaced?) (event?_refused stack hm)
  | _ => rfl

theorem opening?_frame {f : Frame} {e : EvaluatorId} (hlimit : f.depth < (w.evaluator e).maxDepth)
    (stack : Stack H .evaluation final) : opening? ⟨w, _, stack, .request (.evaluateFrame e f)⟩ =
      Event.displaced? (.frame (w.slot (w.evaluator e).slot) e f) := by
  have hevent : event? ⟨w, _, stack, (Job.frame f).task e⟩ = some (.frame (w.slot (w.evaluator e).slot) e f) :=
    if_pos hlimit
  exact congrArg (·.bind Event.displaced?) hevent

theorem Turns.bracketing {task task' : Task H k} (h : Turns β w task w' task') (stack : Stack H k final) :
    Bracketing ⟨w, k, stack, task⟩ ⟨w', k, stack, task'⟩ := by
  cases h with
  | ends hm | becomes hm => exact .quiet (opening?_job stack (by simp [hm])) rfl rfl
  | enters hlimit hs =>
    have hopening := opening?_frame hlimit stack
    rw [hs] at hopening
    exact .quiet hopening rfl rfl
  | brings hp => cases hp <;> exact .quiet rfl rfl rfl
  | compiles => exact .quiet rfl rfl (World.brackets_log_of_not _ _ rfl)
  | acts => exact .quiet rfl rfl (World.brackets_run w _)
  | _ => exact .quiet rfl rfl rfl

theorem Pushes.bracketing (ht : w.threshold.admits .trace) {task : Task H l} {p : Pending H k l} {task' : Task H k}
    (h : Pushes w task w' p task') (stack : Stack H l final) :
    Bracketing ⟨w, l, stack, task⟩ ⟨w', k, .cons p stack, task'⟩ := by
  cases h with
  | calls hm => exact .quiet (opening?_job stack (by simp [hm])) rfl rfl
  | dispatches => exact .quiet rfl rfl (World.brackets_recordTally ..)
  | @opens s h b => exact .opens rfl rfl (World.brackets_openGuard ht s h)
  | _ => exact .quiet rfl rfl rfl

theorem Pops.bracketing (ht : w.threshold.admits .trace) {p : Pending H k l} {r : Except (Panic H) (k.Result H)}
    {task' : Task H l} (h : Pops w p r w' task') (stack : Stack H l final) :
    Bracketing (returning w (.cons p stack) r) ⟨w', l, stack, task'⟩ := by
  have hopening := opening?_returning w (.cons p stack) r
  cases h with
  | closes => exact .closes hopening rfl (World.brackets_closeGuard ht ..)
  | settles => exact .quiet hopening rfl (World.brackets_settle ..)
  | replaces | fails => exact .quiet hopening rfl (World.brackets_recordTally ..)
  | declines =>
    exact .quiet hopening rfl ((World.brackets_recordTally ..).trans (World.brackets_log_of_not w _ rfl))
  | @drops k l p panic hp =>
    cases p with
    | restore s displaced => exact hp.elim
    | _ => exact .quiet hopening rfl rfl
  | _ => exact .quiet hopening rfl rfl

theorem bracketing_of_step {s t : State H final} (ht : s.world.threshold.admits .trace)
    (h : s.step β = .running t) : Bracketing s t := by
  cases step_iff.mp h with
  | turn hturn => exact hturn.bracketing _
  | push hpush => exact hpush.bracketing ht _
  | @offer w e f hook stack hlimit hs =>
    have hopening := opening?_frame hlimit stack
    rw [hs] at hopening
    have hbrackets := World.brackets_openGuard (w := w.countFrame e) ht (w.evaluator e).slot .null
    rw [World.slot_countFrame, hs] at hbrackets
    exact .opens hopening rfl hbrackets
  | pop hpop => exact hpop.bracketing ht _

structure Bracketed (w : World H) (past : List (State H final)) (s : State H final) : Prop where
  heard : s.world.threshold.admits .trace
  logged : ∃ ms, s.world.brackets = w.brackets ++ ms ∧ Leaves ms s.stack.displaced ∧
    ms.filterMap opened? = past.filterMap opening?

namespace Bracketed

variable {past : List (State H final)} {s t : State H final} {n : Nat}

theorem ofRequest (ht : w.threshold.admits .trace) (q : Request H final) : Bracketed w [] (.ofRequest w q) :=
  ⟨ht, [], (List.append_nil _).symm, .balanced .nil, rfl⟩

theorem step (h : Bracketed w past s) (hst : s.step β = .running t) : Bracketed w (past ++ [s]) t := by
  have hthreshold : t.world.threshold = s.world.threshold := World.covers_threshold.reaches (Reaches.step hst)
  obtain ⟨hheard, ms, hms, hleaves, hopened⟩ := h
  refine ⟨hthreshold ▸ hheard, ?_⟩
  rw [filterMap_concat]
  cases bracketing_of_step hheard hst with
  | quiet ho hd hb =>
    rw [ho, hd, hb]
    exact ⟨ms, hms, hleaves, hopened.trans (List.append_nil _).symm⟩
  | @opens displaced ho hd hb =>
    rw [ho, hd, hb, hms, List.append_assoc]
    refine ⟨_, rfl, hleaves.opens displaced, ?_⟩
    rw [List.filterMap_append, hopened]
    rfl
  | @closes displaced ho hd hb =>
    rw [hd] at hleaves
    rw [ho, hb, hms, List.append_assoc]
    refine ⟨_, rfl, hleaves.closes, ?_⟩
    rw [List.filterMap_append, hopened]
    rfl

theorem of_run (ht : w.threshold.admits .trace) {q : Request H final}
    (hn : (State.ofRequest w q).run β n = .running t) : Bracketed w ((State.ofRequest w q).visited β n) t :=
  visited_induct (P := fun _ => True) (fun _ _ _ _ hst h => h.step hst) (fun _ _ => trivial) hn (.ofRequest ht q)

end Bracketed

theorem exists_closing (ht : w.threshold.admits .trace) {q : Request H final} {r : Except (Panic H) (final.Result H)}
    (hf : Finishes β (ofRequest w q) w' r) {ms : List Message} (hms : w'.brackets = w.brackets ++ ms)
    (hb : Balanced ms) {u : State H final} (hu : Reaches β (ofRequest w q) u) {displaced : Hook}
    (ho : u.opening? = some displaced) :
    ∃ before inside after, u.world.brackets = w.brackets ++ before ∧
      ms = before ++ .scopeOpened displaced :: inside ++ .scopeClosed displaced :: after ∧ Balanced inside := by
  have hend : Finishes β u w' r := hu.finishes_iff.mp hf
  obtain ⟨m, hm⟩ := hu
  obtain ⟨hheard, before, hbefore, -⟩ := Bracketed.of_run ht hm
  -- the opening is logged next, and nothing that has been logged is lost
  cases hs : u.step β with
  | finished v r' =>
    rw [eq_returning_of_step hs, opening?_returning] at ho
    cases ho
  | running t =>
    have hopened : t.world.brackets = u.world.brackets ++ [.scopeOpened displaced] := by
      cases bracketing_of_step hheard hs with
      | quiet ho' => cases ho'.symm.trans ho
      | opens ho' _ hb => rwa [Option.some.inj (ho'.symm.trans ho)] at hb
      | closes ho' => cases ho'.symm.trans ho
    obtain ⟨rest, hrest⟩ := World.covers_brackets.finishes ((Reaches.step hs).finishes_iff.mp hend)
    have hsplit : ms = before ++ .scopeOpened displaced :: rest := by
      rw [hopened, hbefore, hms, List.append_assoc, List.append_assoc] at hrest
      exact (List.append_cancel_left hrest).symm
    obtain ⟨inside, after, rfl, hinside⟩ := hb.closing hsplit
    exact ⟨before, inside, after, hbefore, by rw [hsplit, List.append_assoc, List.cons_append], hinside⟩

end State

def Stack.Placid (calm : H.Body → Prop) : {k : Kind} → Stack H k final → Prop
  | _, .nil => True
  | _, .cons p stack => p.Calm calm ∧ stack.Placid calm

namespace State

structure Placid (calm : H.Body → Prop) (s : State H final) : Prop where
  stack : s.stack.Placid calm
  task : s.task.Calm calm

namespace Placid

variable {s t : State H final}

theorem transition (hβ : β.OnlyEvaluates calm) {ms : List ScopeMove} (hst : s.Transition β ms t)
    (h : s.Placid calm) : t.Placid calm := by
  cases hst with
  | turn _ ht => exact ⟨h.stack, Task.calm_of_plain ht⟩
  | push _ hp ht => exact ⟨⟨Pending.calm_of_plain hp, h.stack⟩, Task.calm_of_plain ht⟩
  | pop _ _ ht => exact ⟨h.stack.2, Task.calm_of_plain ht⟩
  | host hp => exact ⟨h.stack, hβ.scripts hp h.task⟩
  | rescue => exact ⟨⟨trivial, h.stack⟩, h.task⟩
  | command => exact ⟨h.stack, h.task.2 _⟩
  | ask => exact ⟨⟨h.task.2, h.stack⟩, h.task.1⟩
  | proceed => exact ⟨h.stack.2, h.stack.1 _⟩
  | offer _ => exact ⟨⟨rfl, trivial, h.stack⟩, trivial⟩
  | within => exact h.task.elim
  | @close k w s displaced stack r =>
    refine ⟨h.stack.2, ?_⟩
    cases r <;> trivial

theorem reaches (hβ : β.OnlyEvaluates calm) (hst : Reaches β s t) (h : s.Placid calm) : t.Placid calm := by
  refine hst.induct (fun u v huv hu => ?_) h
  obtain ⟨ms, hms⟩ := transition_of_step huv
  exact hu.transition hβ hms

theorem opening?_eq (h : s.Placid calm) : s.opening? = s.event?.bind Event.displaced? := by
  obtain ⟨w, k, stack, task⟩ := s
  cases task with
  | request q =>
    cases q with
    | within s hook b => exact h.task.elim
    | _ => rfl
  | _ => rfl

theorem openings_eq (hβ : β.OnlyEvaluates calm) (h : s.Placid calm) (n : Nat) :
    (s.visited β n).filterMap opening? = (s.events β n).filterMap Event.displaced? := by
  rw [events, List.filterMap_filterMap]
  exact List.filterMap_congr fun u hu => (h.reaches hβ (reaches_of_visited hu)).opening?_eq

end Placid

structure GuardRecords (β : Behaviour H) (s : State H final) (n : Nat) (w' : World H) (ms : List Message) : Prop where
  logged : w'.brackets = s.world.brackets ++ ms
  balanced : Balanced ms
  opened : ms.filterMap opened? = (s.visited β n).filterMap opening?
  closed : (ms.filterMap closed?).Perm (ms.filterMap opened?)
  closing : ∀ u ∈ s.visited β n, ∀ {displaced}, u.opening? = some displaced →
    ∃ before inside after, u.world.brackets = s.world.brackets ++ before ∧
      ms = before ++ .scopeOpened displaced :: inside ++ .scopeClosed displaced :: after ∧ Balanced inside

end State

open State

/-- The guards of a run are logged in brackets, each with one record of the displaced hook at its beginning and one at
its end. If bodies open no guards, then there is such a pair for each frame that is offered to a hook, and no other. -/
theorem guard_records_balanced (hw : w.threshold.admits .trace) {q : Request H final}
    {r : Except (Panic H) (final.Result H)} {n : Nat} (hn : (ofRequest w q).run β n = .finished w' r) :
    ∃ ms, GuardRecords β (ofRequest w q) n w' ms ∧ ∀ calm, β.OnlyEvaluates calm → q.Calm calm →
      ms.filterMap opened? = ((ofRequest w q).events β n).filterMap Event.displaced? := by
  obtain ⟨m, hm, hvisited⟩ := visited_of_run hn
  obtain ⟨ms, hms, hleaves, hopened⟩ := (Bracketed.of_run hw hm).logged
  have hbalanced : Balanced ms := hleaves.balanced_of_nil
  have hopenings : ms.filterMap opened? = ((ofRequest w q).visited β n).filterMap opening? := by
    rw [hvisited, filterMap_concat, opening?_returning, hopened]
    exact (List.append_nil _).symm
  have hrecords : GuardRecords β (ofRequest w q) n w' ms := {
    logged := hms
    balanced := hbalanced
    opened := hopenings
    closed := hbalanced.closed_perm_opened
    closing := fun u hu _ ho => exists_closing hw ⟨n, hn⟩ hms hbalanced (reaches_of_visited hu) ho }
  refine ⟨ms, hrecords, fun calm hβ hq => ?_⟩
  rw [hopenings]
  exact Placid.openings_eq (s := ofRequest w q) hβ ⟨trivial, hq⟩ n

namespace BouncingBody

abbrev host : Host := ⟨Unit, Empty, Unit, Empty, EvaluatorId, Empty, Empty, Unit⟩

def behaviour : Behaviour host :=
  ⟨fun e _ => .ask (.evaluate e 0 #[]) fun _ => .done (.ok .fallback), nofun, nofun,
    fun _ => .ask (.evaluate ⟨0⟩ 0 #[]) fun _ => .panic (.host ())⟩

def world : World host :=
  let program := .ofSources [⟨"f", 0, 0, #[0x03, 0x33]⟩]
  { World.empty (some .trace) () with
    slots := ⟨#[.active ⟨0⟩, .active ⟨1⟩]⟩
    handlers := ⟨#[.custom ⟨1⟩, .custom ⟨0⟩]⟩
    evaluators := ⟨#[{ program, slot := ⟨0⟩, maxDepth := 3 }, { program, slot := ⟨1⟩, maxDepth := 3 }]⟩ }

theorem behaviour_onlyEvaluates : behaviour.OnlyEvaluates fun _ => True :=
  ⟨fun _ _ => ⟨trivial, fun _ => trivial⟩, nofun, nofun, fun _ _ => ⟨trivial, fun _ => trivial⟩⟩

theorem guard_records_balanced_bouncing :
    (∃ w', (ofRequest world (.evaluate ⟨0⟩ 0 #[])).run behaviour 30 = .finished w' (.ok (.ok (.bool true))) ∧
      w'.brackets = [.scopeOpened (.active ⟨0⟩), .scopeOpened (.active ⟨1⟩), .scopeClosed (.active ⟨1⟩),
        .scopeClosed (.active ⟨0⟩)] ∧
      Balanced w'.brackets ∧
      ((ofRequest world (.evaluate ⟨0⟩ 0 #[])).events behaviour 30).filterMap Event.displaced? =
        [.active ⟨0⟩, .active ⟨1⟩]) ∧
    ∃ w', (ofRequest world (.within ⟨1⟩ .null ())).run behaviour 30 = .finished w' (.error (.host ())) ∧
      w'.brackets = [.scopeOpened (.active ⟨1⟩), .scopeOpened (.active ⟨0⟩), .scopeClosed (.active ⟨0⟩),
        .scopeClosed (.active ⟨1⟩)] ∧
      Balanced w'.brackets := by
  constructor
  · have hrun : (ofRequest world (.evaluate ⟨0⟩ 0 #[])).run behaviour 30 = .finished _ (.ok (.ok (.bool true))) := rfl
    obtain ⟨ms, hrecords, hframes⟩ := guard_records_balanced rfl hrun
    have hopened := hframes _ behaviour_onlyEvaluates trivial
    obtain rfl : _ = ms := hrecords.logged
    exact ⟨_, hrun, rfl, hrecords.balanced, hopened.symm⟩
  · have hrun : (ofRequest world (.within ⟨1⟩ .null ())).run behaviour 30 = .finished _ (.error (.host ())) := rfl
    obtain ⟨ms, hrecords, -⟩ := guard_records_balanced rfl hrun
    obtain rfl : _ = ms := hrecords.logged
    exact ⟨_, hrun, rfl, hrecords.balanced⟩

end BouncingBody

end Interception
