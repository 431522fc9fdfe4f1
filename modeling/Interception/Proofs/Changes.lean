import Interception.Proofs.Stacks

namespace Interception

variable {H : Host} {k l final : Kind} {β : Behaviour H}

structure Covers (R : World H → World H → Prop) : Prop where
  refl : ∀ w, R w w
  trans : ∀ {w w' w''}, R w w' → R w' w'' → R w w''
  install : ∀ w s h, R w (w.install s h)
  log : ∀ w level message, R w (w.log level message)
  setUsage : ∀ w e usage, R w (w.setUsage e usage)
  recordTally : ∀ w d event, R w (w.recordTally d event)
  lookup : ∀ w c inner cache k f, w.converter c = .caching inner cache →
    R w (w.setConverter c (.caching inner (cache.lookup k f).2))
  store : ∀ w c inner cache k f answer, w.converter c = .caching inner cache →
    R w (w.setConverter c (.caching inner (cache.store k f answer).2))
  command : ∀ w (c : Command H), R w (c.run w).2

namespace Covers

variable {R : World H → World H → Prop} (hR : Covers R) {s t : State H final} {w : World H}
  {r : Except (Panic H) (final.Result H)}

include hR

theorem openGuard (w : World H) (s : SlotId) (h : Hook) : R w (w.openGuard s h) :=
  hR.trans (hR.install w s h) (hR.log ..)

theorem closeGuard (w : World H) (s : SlotId) (h : Hook) : R w (w.closeGuard s h) :=
  hR.trans (hR.log w ..) (hR.install ..)

theorem offering (w : World H) (e : EvaluatorId) : R w (w.offering e) :=
  hR.trans (hR.setUsage w e _) (hR.openGuard ..)

theorem settle (w : World H) (e : EvaluatorId) (f : Frame) (d : Except (Panic H) (Except HookError Decision)) :
    R w (w.settle e f d).world := by
  rcases w.settle_world e f d with hw | hw | hw <;> rw [hw]
  · exact hR.refl w
  · exact hR.setUsage w e _
  · exact hR.trans (hR.setUsage w e _) (hR.log ..)

theorem turns {w' : World H} {task task' : Task H k} (h : State.Turns β w task w' task') : R w w' := by
  cases h with
  | enters => exact hR.setUsage w ..
  | recalls hc => exact hR.lookup w _ _ _ _ _ hc
  | compiles => exact hR.log w ..
  | acts => exact hR.command w _
  | _ => exact hR.refl w

theorem pushes {w' : World H} {task : Task H l} {p : Pending H k l} {task' : Task H k}
    (h : State.Pushes w task w' p task') : R w w' := by
  cases h with
  | dispatches => exact hR.recordTally w ..
  | consults hc => exact hR.lookup w _ _ _ _ _ hc
  | opens => exact hR.openGuard w ..
  | _ => exact hR.refl w

theorem pops {w' : World H} {p : Pending H k l} {r : Except (Panic H) (k.Result H)} {task' : Task H l}
    (h : State.Pops w p r w' task') : R w w' := by
  cases h with
  | closes => exact hR.closeGuard w ..
  | settles => exact hR.settle w ..
  | replaces | fails => exact hR.recordTally w ..
  | declines => exact hR.trans (hR.log w ..) (hR.recordTally ..)
  | remembers hc => exact hR.store w _ _ _ _ _ _ hc
  | _ => exact hR.refl w

theorem step (h : s.step β = .running t) : R s.world t.world := by
  cases State.step_iff.mp h with
  | turn hturn => exact hR.turns hturn
  | push hpush => exact hR.pushes hpush
  | offer => exact hR.offering ..
  | pop hpop => exact hR.pops hpop

theorem reaches (h : State.Reaches β s t) : R s.world t.world :=
  h.induct (I := fun u => R s.world u.world) (fun _ _ hu hs => hR.trans hs (hR.step hu)) (hR.refl _)

theorem finishes (h : State.Finishes β s w r) : R s.world w := hR.reaches h.reaches

end Covers

namespace World

variable {w w' w'' : World H}

def KeepsEvaluators (w w' : World H) : Prop :=
  ∀ e : EvaluatorId, e.index < w.evaluators.cells.size →
    e.index < w'.evaluators.cells.size ∧ (w'.evaluator e).setup = (w.evaluator e).setup

theorem KeepsEvaluators.of_eq (h : w'.fixtures = w.fixtures) : w.KeepsEvaluators w' := by
  intro e he
  have hs : w'.evaluators = w.evaluators := congrArg (fun t => t.2.2) h
  exact ⟨hs ▸ he, congrArg Evaluator.setup (evaluator_of_fixtures h e)⟩

theorem KeepsEvaluators.trans (h : w.KeepsEvaluators w') (h' : w'.KeepsEvaluators w'') :
    w.KeepsEvaluators w'' := by
  intro e he
  obtain ⟨he', hs⟩ := h e he
  obtain ⟨he'', hs'⟩ := h' e he'
  exact ⟨he'', hs'.trans hs⟩

theorem keepsEvaluators_setUsage (w : World H) (e : EvaluatorId) (usage : Usage) :
    w.KeepsEvaluators (w.setUsage e usage) := by
  intro e' he
  refine ⟨?_, ?_⟩
  · simp only [setUsage, Table.set, Array.size_setIfInBounds, Array.size_append, Array.size_replicate]
    omega
  · by_cases h : e = e'
    · subst h
      rw [evaluator_setUsage_self]
      rfl
    · rw [evaluator_setUsage_ne w usage h]

theorem keepsEvaluators_add (w : World H) (program : Program) (slot : SlotId) (maxDepth : Nat) :
    w.KeepsEvaluators ((Command.newEvaluator program slot maxDepth).run w).2 := by
  intro e he
  refine ⟨?_, ?_⟩
  · simp only [Command.run, Table.add, Array.size_push]
    omega
  · simp only [evaluator, Command.run]
    rw [Table.get_add_old _ _ (Nat.ne_of_lt he)]

theorem keepsEvaluators_command (w : World H) (c : Command H) : w.KeepsEvaluators (c.run w).2 := by
  cases c with
  | newEvaluator program slot maxDepth => exact keepsEvaluators_add w program slot maxDepth
  | enter s => exact .of_eq (fixtures_enter w s)
  | exit s => exact .of_eq (fixtures_exit w s)
  | drop s => exact .of_eq (fixtures_drop w s)
  | invalidate c code => exact .of_eq (fixtures_invalidate w c code)
  | newHandler _ | newCompiler _ => exact fun _ he => ⟨he, rfl⟩
  | _ => exact .of_eq rfl

theorem covers_keepsEvaluators : Covers (H := H) KeepsEvaluators where
  refl _ := .of_eq rfl
  trans := .trans
  install _ _ _ := .of_eq rfl
  log _ _ _ := .of_eq (fixtures_log ..)
  setUsage := keepsEvaluators_setUsage
  recordTally _ _ _ := .of_eq (fixtures_recordTally ..)
  lookup _ _ _ _ _ _ _ := .of_eq rfl
  store _ _ _ _ _ _ _ _ := .of_eq rfl
  command := keepsEvaluators_command

theorem allocated_of_maxDepth_pos {e : EvaluatorId} (h : 0 < (w.evaluator e).maxDepth) :
    e.index < w.evaluators.cells.size := by
  apply Decidable.byContradiction
  intro hn
  -- the default evaluator has the limit 0
  have hd : w.evaluator e = default := by
    simp only [evaluator, Table.get, Array.getD, dif_neg hn]
  rw [hd] at h
  exact absurd h (by decide)

def KeepsHandlers (w w' : World H) : Prop :=
  ∀ h : HandlerId, h.index < w.handlers.cells.size →
    h.index < w'.handlers.cells.size ∧ w'.handler h = w.handler h

theorem KeepsHandlers.of_eq (h : w'.handlers = w.handlers) : w.KeepsHandlers w' :=
  fun i hi => ⟨h ▸ hi, congrArg (fun t => t.get i.index) h⟩

theorem keepsHandlers_command (w : World H) (c : Command H) : w.KeepsHandlers (c.run w).2 := by
  cases c with
  | newHandler handler =>
    intro h hh
    refine ⟨?_, Table.get_add_old _ _ (Nat.ne_of_lt hh)⟩
    simp only [Command.run, Table.add, Array.size_push]
    omega
  | enter s => exact .of_eq (congrArg Prod.fst (fixtures_enter w s))
  | exit s => exact .of_eq (congrArg Prod.fst (fixtures_exit w s))
  | drop s => exact .of_eq (congrArg Prod.fst (fixtures_drop w s))
  | invalidate c code => exact .of_eq (congrArg Prod.fst (fixtures_invalidate w c code))
  | _ => exact .of_eq rfl

theorem covers_keepsHandlers : Covers (H := H) KeepsHandlers where
  refl _ := .of_eq rfl
  trans h h' := fun i hi => by
    obtain ⟨hi', hs⟩ := h i hi
    obtain ⟨hi'', hs'⟩ := h' i hi'
    exact ⟨hi'', hs'.trans hs⟩
  install _ _ _ := .of_eq rfl
  log _ _ _ := .of_eq (congrArg Prod.fst (fixtures_log ..))
  setUsage _ _ _ := .of_eq rfl
  recordTally _ _ _ := .of_eq (congrArg Prod.fst (fixtures_recordTally ..))
  lookup _ _ _ _ _ _ _ := .of_eq rfl
  store _ _ _ _ _ _ _ _ := .of_eq rfl
  command := keepsHandlers_command

theorem converter_of_converters (h : w'.converters = w.converters) (c : ConverterId) :
    w'.converter c = w.converter c := congrArg (fun t => t.get c.index) h

theorem converters_log (w : World H) (level : Level) (message : Message) :
    (w.log level message).converters = w.converters := by
  unfold log; split <;> rfl

theorem converters_recordTally (w : World H) (d : Dispatch) (event : Tally.Event) :
    (w.recordTally d event).converters = w.converters := by
  unfold recordTally; split <;> rfl

theorem converter_setConverter_self (w : World H) (c : ConverterId) (converter : Converter H) :
    (w.setConverter c converter).converter c = converter := Table.get_set_self ..

theorem converter_setConverter_ne (w : World H) {c c' : ConverterId} (converter : Converter H) (h : c ≠ c') :
    (w.setConverter c converter).converter c' = w.converter c' := by
  apply Table.get_set_ne
  intro hi
  cases c
  cases c'
  simp_all

end World

end Interception
