import Interception.Proofs.Nesting

namespace Interception

variable {H : Host} {k l final : Kind} {β : Behaviour H}

inductive Behaviour.Scripts (β : Behaviour H) : {k : Kind} → Request H k → Script H (k.Result H) → Prop
  | decide {h : HandlerId} {d : H.Decider} {f : Frame} : Scripts β (.decide (.active h) f) (β.decide d f)
  | convert {c : ConverterId} {b : CompilerId} {s : H.Converter} {f : Frame} :
    Scripts β (.convert c b f) (β.convert s f b)
  | compile {b : CompilerId} {s : H.Compiler} {code : Code} : Scripts β (.compile b code) (β.compile s code)
  | perform {b : H.Body} : Scripts β (.perform b) (β.perform b)

theorem World.Brings.scripts {w : World H} {q : Request H k} {p : Script H (k.Result H)} (h : w.Brings β q p) :
    β.Scripts q p := by
  cases h <;> constructor

def Task.Plain : Task H k → Prop
  | .script _ | .request (.perform _) | .request (.within _ _ _) | .request (.rescue _) => False
  | _ => True

def Pending.Plain : Pending H k l → Prop
  | .restore _ _ | .proceed _ | .rescue => False
  | _ => True

def Pending.IsGuard : Pending H k l → Prop
  | .restore _ _ => True
  | _ => False

theorem Task.plain_ofResult (r : Except (Panic H) (k.Result H)) : (Task.ofResult r).Plain := by
  cases r <;> trivial

theorem Settled.plain_task (e : EvaluatorId) (s : Settled H) : (s.task e).Plain := by
  cases s with
  | runs w a => trivial
  | ends w r => exact Task.plain_ofResult (k := .evaluation) r

theorem Pending.Inert.not_isGuard {p : Pending H k l} (h : p.Inert) : ¬ p.IsGuard := by
  cases p with
  | restore s displaced => exact h.elim
  | _ => exact id

theorem Pending.Plain.not_isGuard {p : Pending H k l} (h : p.Plain) : ¬ p.IsGuard := by
  cases p with
  | restore s displaced => exact h.elim
  | _ => exact id

def Command.moves : Command H → List ScopeMove
  | install s h => [.install s h]
  | enter s => [.enter s]
  | exit s => [.exit s]
  | drop s => [.drop s]
  | newScope s h => [.create s h]
  | _ => []

def Stack.guardCount : {k : Kind} → Stack H k final → Nat
  | _, .nil => 0
  | _, .cons (.restore _ _) stack => stack.guardCount + 1
  | _, .cons _ stack => stack.guardCount

namespace State

inductive Transition (β : Behaviour H) : State H final → List ScopeMove → State H final → Prop
  | turn {k : Kind} {w w' : World H} {stack : Stack H k final} {task task' : Task H k} (hw : w'.hooks = w.hooks)
    (ht : task'.Plain) : Transition β ⟨w, k, stack, task⟩ [] ⟨w', k, stack, task'⟩
  | push {k l : Kind} {w w' : World H} {p : Pending H k l} {stack : Stack H l final} {task : Task H l}
    {task' : Task H k} (hw : w'.hooks = w.hooks) (hp : p.Plain) (ht : task'.Plain) :
    Transition β ⟨w, l, stack, task⟩ [] ⟨w', k, .cons p stack, task'⟩
  | pop {k l : Kind} {w w' : World H} {p : Pending H k l} {stack : Stack H l final} {task : Task H k}
    {task' : Task H l} (hw : w'.hooks = w.hooks) (hp : ¬ p.IsGuard) (ht : task'.Plain) :
    Transition β ⟨w, k, .cons p stack, task⟩ [] ⟨w', l, stack, task'⟩
  | host {k : Kind} {w : World H} {stack : Stack H k final} {q : Request H k} {p : Script H (k.Result H)}
    (hp : β.Scripts q p) : Transition β ⟨w, k, stack, .request q⟩ [] ⟨w, k, stack, .script p⟩
  | rescue {w : World H} {stack : Stack H .rescued final} {b : H.Body} :
    Transition β ⟨w, _, stack, .request (.rescue b)⟩ [] ⟨w, _, .cons .rescue stack, .request (.perform b)⟩
  | command {k : Kind} {w : World H} {stack : Stack H k final} {c : Command H}
    {next : c.Answer → Script H (k.Result H)} :
    Transition β ⟨w, k, stack, .script (.act c next)⟩ c.moves ⟨(c.run w).2, k, stack, .script (next (c.run w).1)⟩
  | ask {k l : Kind} {w : World H} {stack : Stack H l final} {q : Request H k}
    {next : k.Result H → Script H (l.Result H)} :
    Transition β ⟨w, l, stack, .script (.ask q next)⟩ [] ⟨w, k, .cons (.proceed next) stack, .request q⟩
  | proceed {k l : Kind} {w : World H} {stack : Stack H l final} {next : k.Result H → Script H (l.Result H)}
    {a : k.Result H} :
    Transition β ⟨w, k, .cons (.proceed next) stack, .answer a⟩ [] ⟨w, l, stack, .script (next a)⟩
  | offer {w : World H} {e : EvaluatorId} {f : Frame} {h : HandlerId} {stack : Stack H .evaluation final}
    (hs : w.slot (w.evaluator e).slot = .active h) :
    Transition β ⟨w, _, stack, .request (.evaluateFrame e f)⟩ [.guard stack.guardCount (w.evaluator e).slot .null]
      (offer (w.offering e) e h f stack)
  | within {w : World H} {s : SlotId} {h : Hook} {b : H.Body} {stack : Stack H .body final} :
    Transition β ⟨w, _, stack, .request (.within s h b)⟩ [.guard stack.guardCount s h]
      ⟨w.openGuard s h, _, .cons (.restore s (w.slot s)) stack, .request (.perform b)⟩
  | close {k : Kind} {w : World H} {s : SlotId} {displaced : Hook} {stack : Stack H k final}
    {r : Except (Panic H) (k.Result H)} :
    Transition β (returning w (.cons (.restore s displaced) stack) r) [.close stack.guardCount]
      (returning (w.closeGuard s displaced) stack r)

variable {w w' : World H}

theorem Turns.transition {task task' : Task H k} (h : Turns β w task w' task') (stack : Stack H k final) :
    ∃ ms, Transition β ⟨w, k, stack, task⟩ ms ⟨w', k, stack, task'⟩ := by
  cases h with
  | ends => exact ⟨_, .turn rfl (Task.plain_ofResult _)⟩
  | @becomes e job job' =>
    refine ⟨_, .turn rfl ?_⟩
    cases job' <;> trivial
  | brings hp => exact ⟨_, .host hp.scripts⟩
  | compiles => exact ⟨_, .turn (World.hooks_log ..) trivial⟩
  | acts => exact ⟨_, .command⟩
  | _ => exact ⟨_, .turn rfl trivial⟩

theorem Pushes.transition {task : Task H l} {p : Pending H k l} {task' : Task H k} (h : Pushes w task w' p task')
    (stack : Stack H l final) : ∃ ms, Transition β ⟨w, l, stack, task⟩ ms ⟨w', k, .cons p stack, task'⟩ := by
  cases h with
  | dispatches => exact ⟨_, .push (World.hooks_recordTally ..) trivial trivial⟩
  | opens => exact ⟨_, .within⟩
  | rescues => exact ⟨_, .rescue⟩
  | asks => exact ⟨_, .ask⟩
  | _ => exact ⟨_, .push rfl trivial trivial⟩

theorem Pops.transition {p : Pending H k l} {r : Except (Panic H) (k.Result H)} {task' : Task H l}
    (h : Pops w p r w' task') (stack : Stack H l final) :
    ∃ ms, Transition β (returning w (.cons p stack) r) ms ⟨w', l, stack, task'⟩ := by
  cases h with
  | closes => exact ⟨_, .close⟩
  | aborts => exact ⟨_, .pop rfl id (Task.plain_ofResult _)⟩
  | settles => exact ⟨_, .pop (World.hooks_settle ..) id (Settled.plain_task ..)⟩
  | replaces | fails => exact ⟨_, .pop (World.hooks_recordTally ..) id trivial⟩
  | declines => exact ⟨_, .pop ((World.hooks_recordTally ..).trans (World.hooks_log ..)) id trivial⟩
  | proceeds => exact ⟨_, .proceed⟩
  | drops hp => exact ⟨_, .pop rfl hp.not_isGuard trivial⟩
  | _ => exact ⟨_, .pop rfl id trivial⟩

theorem transition_of_step {s t : State H final} (h : s.step β = .running t) : ∃ ms, Transition β s ms t := by
  cases step_iff.mp h with
  | turn hturn => exact hturn.transition _
  | push hpush => exact hpush.transition _
  | offer _ hs => exact ⟨_, .offer hs⟩
  | pop hpop => exact hpop.transition _

end State

end Interception
