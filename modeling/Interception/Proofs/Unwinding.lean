import Interception.Proofs.Slots

/-!
The hooks that the slots will hold once every guard on the stack has closed. Only a command that changes a slot
itself changes them: guards come with their own undoing, and evaluations open nothing but guards.
-/

namespace Interception

variable {H : Host} {k l final : Kind} {β : Behaviour H}

def Command.LeavesSlots : Command H → Prop
  | install _ _ | enter _ | exit _ | drop _ => False
  | _ => True

def Script.LeavesSlots {α : Type} : Script H α → Prop
  | done _ | panic _ => True
  | act c next => c.LeavesSlots ∧ ∀ a, (next a).LeavesSlots
  | ask _ next => ∀ a, (next a).LeavesSlots

structure Behaviour.LeavesSlots (β : Behaviour H) : Prop where
  decide : ∀ d f, (β.decide d f).LeavesSlots
  convert : ∀ c f compiler, (β.convert c f compiler).LeavesSlots
  compile : ∀ c code, (β.compile c code).LeavesSlots
  perform : ∀ b, (β.perform b).LeavesSlots

def Task.LeavesSlots : Task H k → Prop
  | .script p => p.LeavesSlots
  | _ => True

theorem Task.leavesSlots_ofResult (r : Except (Panic H) (k.Result H)) : (Task.ofResult r).LeavesSlots := by
  cases r <;> trivial

theorem Job.leavesSlots_task (job : Job) (e : EvaluatorId) : (job.task e : Task H .evaluation).LeavesSlots := by
  cases job <;> trivial

theorem Settled.leavesSlots_task (e : EvaluatorId) (s : Settled H) : (s.task e).LeavesSlots := by
  cases s with
  | runs w a => trivial
  | ends w r => exact Task.leavesSlots_ofResult (k := .evaluation) r

theorem Behaviour.LeavesSlots.brings (hβ : β.LeavesSlots) {w : World H} {q : Request H k} {p : Script H (k.Result H)}
    (hp : w.Brings β q p) : p.LeavesSlots := by
  cases hp with
  | decide => exact hβ.decide _ _
  | convert => exact hβ.convert _ _ _
  | compile => exact hβ.compile _ _
  | perform => exact hβ.perform _

theorem World.slot_reopened (w : World H) (s t : SlotId) (h : Hook) :
    (if s = t then w.slot s else (w.openGuard s h).slot t) = w.slot t := by
  rw [slot_openGuard]
  split
  · next hst => rw [hst]
  · rfl

namespace Stack

def LeavesSlots : {k : Kind} → Stack H k final → Prop
  | _, .nil => True
  | _, .cons (.proceed next) stack => (∀ a, (next a).LeavesSlots) ∧ stack.LeavesSlots
  | _, .cons _ stack => stack.LeavesSlots

/-- Where the slot holds `h` now. -/
def unwound (s : SlotId) : {k : Kind} → Stack H k final → Hook → Hook
  | _, .nil, h => h
  | _, .cons (.restore t displaced) stack, h => stack.unwound s (if t = s then displaced else h)
  | _, .cons _ stack, h => stack.unwound s h

end Stack

theorem Command.slot_run (w : World H) {c : Command H} (h : c.LeavesSlots) (s : SlotId) :
    (c.run w).2.slot s = w.slot s := by
  cases c with
  | install t h' => exact h.elim
  | enter t => exact h.elim
  | exit t => exact h.elim
  | drop t => exact h.elim
  | invalidate c code =>
    simp only [run]
    cases w.converter c <;> rfl
  | newSlot =>
    -- the new slot is empty, and so was the slot of its number before it existed
    by_cases hs : s.index = w.slots.cells.size
    · simp [run, World.slot, Table.get, Table.add, hs, Array.getD]
      rfl
    · exact Table.get_add_old _ _ hs
  | _ => rfl

namespace State

def LeavesSlots (s : State H final) : Prop := s.task.LeavesSlots ∧ s.stack.LeavesSlots

def unwound (s : State H final) (t : SlotId) : Hook := s.stack.unwound t (s.world.slot t)

variable {w w' : World H}

theorem Turns.leavesSlots (hβ : β.LeavesSlots) {task task' : Task H k} (h : Turns β w task w' task')
    (ht : task.LeavesSlots) : task'.LeavesSlots ∧ ∀ s, w'.slot s = w.slot s := by
  cases h with
  | @ends e job q => exact ⟨Task.leavesSlots_ofResult _, fun _ => rfl⟩
  | @becomes e job job' => exact ⟨Job.leavesSlots_task job' e, fun _ => rfl⟩
  | brings hp => exact ⟨hβ.brings hp, fun _ => rfl⟩
  | compiles => exact ⟨trivial, fun _ => World.slot_log ..⟩
  | acts => exact ⟨ht.2 _, Command.slot_run w ht.1⟩
  | _ => exact ⟨trivial, fun _ => rfl⟩

theorem Pushes.leavesSlots {task : Task H l} {p : Pending H k l} {task' : Task H k} (h : Pushes w task w' p task')
    (ht : task.LeavesSlots) {stack : Stack H l final} (hs : stack.LeavesSlots) :
    (⟨w', k, .cons p stack, task'⟩ : State H final).LeavesSlots ∧
      ∀ s, (Stack.cons p stack).unwound s (w'.slot s) = stack.unwound s (w.slot s) := by
  cases h with
  | dispatches => exact ⟨⟨trivial, hs⟩, fun s => congrArg (stack.unwound s) (World.slot_recordTally ..)⟩
  | @opens s h b => exact ⟨⟨trivial, hs⟩, fun t => congrArg (stack.unwound t) (World.slot_reopened w s t h)⟩
  | asks => exact ⟨⟨trivial, ht, hs⟩, fun _ => rfl⟩
  | _ => exact ⟨⟨trivial, hs⟩, fun _ => rfl⟩

theorem Pops.leavesSlots {p : Pending H k l} {r : Except (Panic H) (k.Result H)} {task' : Task H l}
    (h : Pops w p r w' task') {stack : Stack H l final} (hs : (Stack.cons p stack).LeavesSlots) :
    (⟨w', l, stack, task'⟩ : State H final).LeavesSlots ∧
      ∀ s, stack.unwound s (w'.slot s) = (Stack.cons p stack).unwound s (w.slot s) := by
  cases h with
  | closes =>
    refine ⟨⟨Task.leavesSlots_ofResult _, hs⟩, fun t => ?_⟩
    simp only [Stack.unwound, World.slot_closeGuard]
  | aborts => exact ⟨⟨Task.leavesSlots_ofResult _, hs⟩, fun _ => rfl⟩
  | settles =>
    refine ⟨⟨Settled.leavesSlots_task .., hs⟩, fun t => congrArg (stack.unwound t) (World.slot_settle ..)⟩
  | replaces | fails => exact ⟨⟨trivial, hs⟩, fun s => congrArg (stack.unwound s) (World.slot_recordTally ..)⟩
  | declines =>
    refine ⟨⟨trivial, hs⟩, fun s => congrArg (stack.unwound s) ?_⟩
    rw [World.slot_recordTally, World.slot_log]
  | proceeds => exact ⟨⟨hs.1 _, hs.2⟩, fun _ => rfl⟩
  | @drops k l p panic hp =>
    cases p with
    | restore s displaced => exact hp.elim
    | rescue => exact hp.elim
    | proceed next => exact ⟨⟨trivial, hs.2⟩, fun _ => rfl⟩
    | _ => exact ⟨⟨trivial, hs⟩, fun _ => rfl⟩
  | _ => exact ⟨⟨trivial, hs⟩, fun _ => rfl⟩

theorem LeavesSlots.step (hβ : β.LeavesSlots) {s t : State H final} (h : s.step β = .running t) (hs : s.LeavesSlots) :
    t.LeavesSlots ∧ ∀ u, t.unwound u = s.unwound u := by
  obtain ⟨htask, hstack⟩ := hs
  cases step_iff.mp h with
  | @turn k w w' stack task task' hturn =>
    obtain ⟨htask', hw⟩ := hturn.leavesSlots hβ htask
    exact ⟨⟨htask', hstack⟩, fun u => congrArg (stack.unwound u) (hw u)⟩
  | push hpush => exact hpush.leavesSlots htask hstack
  | @offer w e f h stack _ hslot =>
    refine ⟨⟨trivial, hstack⟩, fun u => congrArg (stack.unwound u) ?_⟩
    have hreopened := (w.countFrame e).slot_reopened (w.evaluator e).slot u .null
    rw [World.slot_countFrame, hslot, World.slot_countFrame] at hreopened
    rw [World.evaluator_slot_offering]
    exact hreopened
  | pop hpop => exact hpop.leavesSlots hstack

theorem reaches_unwound (hβ : β.LeavesSlots) {s s' : State H final} (h : Reaches β s s') (hs : s.LeavesSlots)
    (t : SlotId) : s'.unwound t = s.unwound t := by
  have hinv := h.induct (I := fun u => u.LeavesSlots ∧ ∀ t, u.unwound t = s.unwound t)
    (fun u v huv hu => by
      obtain ⟨hv, hunwound⟩ := hu.1.step hβ huv
      exact ⟨hv, fun t => (hunwound t).trans (hu.2 t)⟩)
    ⟨hs, fun _ => rfl⟩
  exact hinv.2 t

end State

theorem Job.start_leavesSlots (job : Job) (w : World H) (e : EvaluatorId) : (job.start w e).LeavesSlots :=
  ⟨job.leavesSlots_task e, trivial⟩

open State

/-- An evaluation leaves its own slot with the hook it found there, however it ends and whatever the hook does, and
every slot if scripts have to do with slots only by evaluating frames and by running bodies under guards. -/
theorem evaluation_restores_slots {e : EvaluatorId} {w w' : World H} {job : Job}
    {r : Except (Panic H) (Except EvalError Value)} (h : Finishes β (job.start w e) w' r) :
    w'.slot (w.evaluator e).slot = w.slot (w.evaluator e).slot ∧ (β.LeavesSlots → ∀ s, w'.slot s = w.slot s) := by
  constructor
  · exact (finishes_iff_evaluates.mp h).restores.2
  · intro hβ s
    exact reaches_unwound hβ h.reaches (job.start_leavesSlots w e) s

namespace SingleHook

abbrev host : Host := ⟨Unit, Empty, Unit, Empty, Unit, Empty, Empty, Empty⟩

def behaviour (decide : Frame → Script host (Except HookError Decision)) : Behaviour host :=
  ⟨fun _ => decide, nofun, nofun, nofun⟩

def slot : SlotId := ⟨1⟩

def hook : Hook := .active ⟨0⟩

def evaluator : EvaluatorId := ⟨0⟩

def world (program : Program) (maxDepth : Nat) : World host :=
  { slots := ⟨#[.null, hook]⟩
    handlers := ⟨#[.custom ()]⟩
    evaluators := ⟨#[{ program, slot, maxDepth }]⟩
    host := () }

def program : Program :=
  .ofSources [⟨"outer", 0, 0, #[0x32, 1, 0, 0, 0, 0, 0x33]⟩, ⟨"inner", 0, 0, #[0x03, 0x33]⟩]

def meddling : Behaviour host :=
  behaviour fun f => .act (.install slot .null) fun _ =>
    if f.depth = 0 then .done (.ok .fallback) else .panic (.host ())

def busy : Behaviour host :=
  behaviour fun _ => .ask (.evaluate evaluator 1 #[]) fun _ => .done (.ok .fallback)

theorem evaluation_restores_slots_meddling :
    (∃ w', Finishes meddling ((Job.call 0 #[]).start (world program 2) evaluator) w' (.error (.host ())) ∧
      w'.slot slot = hook) ∧
    ∃ w', Finishes busy ((Job.call 0 #[]).start (world program 2) evaluator) w' (.ok (.ok (.bool true))) ∧
      ∀ s, w'.slot s = (world program 2).slot s := by
  have hm : Finishes meddling ((Job.call 0 #[]).start (world program 2) evaluator) _ (.error (.host ())) :=
    ⟨20, rfl⟩
  have hb : Finishes busy ((Job.call 0 #[]).start (world program 2) evaluator) _ (.ok (.ok (.bool true))) :=
    ⟨60, rfl⟩
  have hbusy : busy.LeavesSlots := ⟨fun _ _ _ => trivial, nofun, nofun, nofun⟩
  exact ⟨⟨_, hm, (evaluation_restores_slots hm).1⟩, _, hb, (evaluation_restores_slots hb).2 hbusy⟩

end SingleHook

end Interception
