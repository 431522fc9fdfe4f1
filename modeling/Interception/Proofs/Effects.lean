import Interception.Proofs.Scopes

namespace Interception

variable {H : Host} {k l final : Kind} {β : Behaviour H}

theorem Journal.records_push {ν : Type} (j : Journal ν) (r : Record) :
    Journal.records (Array.push j (.record r)) = j.records ++ [r] := by
  simp [Journal.records]

def Message.refuses : Message → Bool
  | notConverted _ _ => true
  | _ => false

namespace World

def refusals (w : World H) : Nat := w.journal.records.countP (·.message.refuses)

def books (w : World H) : Table (Converter H) × Table Tally × Table Evaluator × Nat :=
  (w.converters, w.tallies, w.evaluators, w.refusals)

theorem refusals_log (w : World H) (level : Level) (message : Message) :
    (w.log level message).refusals =
      w.refusals + if w.threshold.admits level && message.refuses then 1 else 0 := by
  rw [log]
  by_cases ha : w.threshold.admits level
  · rw [if_pos ha, refusals, Journal.records_push, List.countP_append, List.countP_singleton, ha]
    rfl
  · rw [if_neg ha]
    simp [ha]

theorem books_log (w : World H) (level : Level) {message : Message} (h : message.refuses = false) :
    (w.log level message).books = w.books := by
  have hr : (w.log level message).refusals = w.refusals := by simp [refusals_log, h]
  have hc : (w.log level message).converters = w.converters := by unfold log; split <;> rfl
  have ht : (w.log level message).tallies = w.tallies := by unfold log; split <;> rfl
  have he : (w.log level message).evaluators = w.evaluators := by unfold log; split <;> rfl
  simp only [books, hr, hc, ht, he]

theorem books_openGuard (w : World H) (s : SlotId) (h : Hook) : (w.openGuard s h).books = w.books :=
  (books_log _ _ rfl).trans rfl

theorem books_closeGuard (w : World H) (s : SlotId) (h : Hook) : (w.closeGuard s h).books = w.books :=
  Eq.trans rfl (books_log w .trace rfl)

theorem books_ignoresScopes : IgnoresScopes (books (H := H)) where
  install _ _ _ := rfl
  setScope _ _ _ := rfl
  logEntered w _ := books_log w _ rfl
  logExited w _ := books_log w _ rfl
  logDropped w := books_log w _ rfl

theorem books_enter (w : World H) (s : ScopeId) : (w.enter s).2.books = w.books := books_ignoresScopes.enter w s

theorem books_exit (w : World H) (s : ScopeId) : (w.exit s).2.books = w.books := books_ignoresScopes.exit w s

theorem books_drop (w : World H) (s : ScopeId) : (w.drop s).books = w.books := books_ignoresScopes.drop w s

theorem refusals_note (w : World H) (n : H.Note) : (w.note n).refusals = w.refusals := by
  simp [refusals, note, Journal.records]

section

variable {w w' : World H}

def KeepsConverters (w w' : World H) : Prop :=
  ∀ c : ConverterId, c.index < w.converters.cells.size → (∀ inner cache, w.converter c ≠ .caching inner cache) →
    c.index < w'.converters.cells.size ∧ w'.converter c = w.converter c

theorem KeepsConverters.of_eq (h : w'.converters = w.converters) : w.KeepsConverters w' :=
  fun c hc _ => ⟨h ▸ hc, converter_of_converters h c⟩

theorem keepsConverters_setConverter {c inner : ConverterId} {cache : Cache} (converter : Converter H)
    (h : w.converter c = .caching inner cache) : w.KeepsConverters (w.setConverter c converter) := by
  intro c' hc' hkept
  have hne : c ≠ c' := by
    rintro rfl
    exact hkept inner cache h
  refine ⟨?_, converter_setConverter_ne w converter hne⟩
  simp only [setConverter, Table.set, Array.size_setIfInBounds, Array.size_append, Array.size_replicate]
  omega

theorem keepsConverters_command (w : World H) (c : Command H) : w.KeepsConverters (c.run w).2 := by
  cases c with
  | newConverter converter =>
    intro c hc _
    refine ⟨?_, Table.get_add_old _ _ (Nat.ne_of_lt hc)⟩
    simp only [Command.run, Table.add, Array.size_push]
    omega
  | enter s => exact .of_eq (congrArg Prod.fst (books_enter w s))
  | exit s => exact .of_eq (congrArg Prod.fst (books_exit w s))
  | drop s => exact .of_eq (congrArg Prod.fst (books_drop w s))
  | invalidate c code =>
    simp only [Command.run]
    cases hc : w.converter c with
    | caching inner cache => exact keepsConverters_setConverter _ hc
    | _ => exact .of_eq rfl
  | _ => exact .of_eq rfl

theorem covers_keepsConverters : Covers (H := H) KeepsConverters where
  refl _ := .of_eq rfl
  trans h h' := fun c hc hkept => by
    obtain ⟨hc', hs⟩ := h c hc hkept
    obtain ⟨hc'', hs'⟩ := h' c hc' (hs ▸ hkept)
    exact ⟨hc'', hs'.trans hs⟩
  install _ _ _ := .of_eq rfl
  log _ _ _ := .of_eq (converters_log ..)
  setUsage _ _ _ := .of_eq rfl
  recordTally _ _ _ := .of_eq (converters_recordTally ..)
  lookup _ _ _ _ _ _ h := keepsConverters_setConverter _ h
  store _ _ _ _ _ _ _ h := keepsConverters_setConverter _ h
  command := keepsConverters_command

end

end World

def Command.Books : Command H → Prop
  | invalidate _ _ | resetTally _ | newConverter _ | newTally | newEvaluator _ _ _ => True
  | _ => False

theorem Command.books_run (w : World H) {c : Command H} (hc : ¬ c.Books) : (c.run w).2.books = w.books := by
  cases c with
  | invalidate c code => exact absurd trivial hc
  | resetTally τ => exact absurd trivial hc
  | newConverter converter => exact absurd trivial hc
  | newTally => exact absurd trivial hc
  | newEvaluator program slot maxDepth => exact absurd trivial hc
  | enter s => exact World.books_enter w s
  | exit s => exact World.books_exit w s
  | drop s => exact World.books_drop w s
  | note n =>
    have hn := World.refusals_note w n
    simp only [World.books, run, hn]
    rfl
  | _ => rfl

theorem World.books_settle (w : World H) (e : EvaluatorId) (f : Frame)
    (d : Except (Panic H) (Except HookError Decision)) :
    (w.settle e f d).world.books = (w.converters, w.tallies, (w.settle e f d).world.evaluators, w.refusals) := by
  rcases w.settle_world e f d with hw | hw | hw <;> rw [hw]
  · rfl
  · rfl
  · have hlog := books_log (w.countGuardFailure e) .trace (rfl : (Message.guardFailed f.name).refuses = false)
    exact hlog.trans (congrArg (fun t => (w.converters, w.tallies, t, w.refusals)) (congrArg (·.2.2.1) hlog).symm)

def Pending.Accounts : Pending H k l → Prop
  | .settle _ _ | .classify _ _ | .remember _ _ _ => True
  | _ => False

def Task.Works : Task H k → Prop
  | .answer _ | .unwind _ | .script (.act _ _) => False
  | _ => True

theorem Job.works_task (job : Job) (e : EvaluatorId) : (job.task e : Task H .evaluation).Works := by
  cases job <;> trivial

namespace State

inductive Effect : State H final → State H final → Prop
  | turn {k : Kind} {w w' : World H} {stack : Stack H k final} {task task' : Task H k} (hw : w'.books = w.books)
    (ht : task.Works) : Effect ⟨w, k, stack, task⟩ ⟨w', k, stack, task'⟩
  | push {k l : Kind} {w w' : World H} {p : Pending H k l} {stack : Stack H l final} {task : Task H l}
    {task' : Task H k} (hw : w'.books = w.books) (hp : ¬ p.Accounts) (ht : task.Works) :
    Effect ⟨w, l, stack, task⟩ ⟨w', k, .cons p stack, task'⟩
  | pop {k l : Kind} {w w' : World H} {p : Pending H k l} {stack : Stack H l final}
    {r : Except (Panic H) (k.Result H)} {task' : Task H l} (hw : w'.books = w.books) (hp : ¬ p.Accounts) :
    Effect (returning w (.cons p stack) r) ⟨w', l, stack, task'⟩
  | command {k : Kind} {w : World H} {stack : Stack H k final} {c : Command H}
    {next : c.Answer → Script H (k.Result H)} :
    Effect ⟨w, k, stack, .script (.act c next)⟩ ⟨(c.run w).2, k, stack, .script (next (c.run w).1)⟩
  | entered {w : World H} {e : EvaluatorId} {f : Frame} {stack : Stack H .evaluation final}
    (hlimit : f.depth < (w.evaluator e).maxDepth) :
    Effect ⟨w, _, stack, .request (.evaluateFrame e f)⟩ ⟨w.countFrame e, _, stack, .run e (.start f)⟩
  | offered {w : World H} {e : EvaluatorId} {f : Frame} {h : HandlerId} {stack : Stack H .evaluation final}
    (hlimit : f.depth < (w.evaluator e).maxDepth) :
    Effect ⟨w, _, stack, .request (.evaluateFrame e f)⟩ (offer (w.offering e) e h f stack)
  | settled {w : World H} {e : EvaluatorId} {f : Frame} {d : Except (Panic H) (Except HookError Decision)}
    {stack : Stack H .evaluation final} :
    Effect (returning (k := .decision) w (.cons (.settle e f) stack) d) (settled e stack (w.settle e f d))
  | dispatched {w : World H} {d : Dispatch} {f : Frame} {stack : Stack H .decision final} :
    Effect ⟨w, _, stack, .request (.dispatch d f)⟩
      ⟨w.recordTally d .intercepted, _, .cons (.classify d f) stack, .request (.convert d.converter d.compiler f)⟩
  | classified {w : World H} {d : Dispatch} {f : Frame} {a : Conversion} {stack : Stack H .decision final} :
    Effect ⟨w, _, .cons (.classify d f) stack, .answer a⟩ (deliver (k := .conversion) w a (.classify d f) stack)
  | recalled {w : World H} {c inner : ConverterId} {cache : Cache} {b : CompilerId} {f : Frame} {a : Conversion}
    {stack : Stack H .conversion final} (hc : w.converter c = .caching inner cache)
    (hl : (cache.lookup ⟨f.code.id, b⟩ f).1 = some a) :
    Effect ⟨w, _, stack, .request (.convert c b f)⟩
      ⟨w.setConverter c (.caching inner (cache.lookup ⟨f.code.id, b⟩ f).2), _, stack, .answer a⟩
  | consulted {w : World H} {c inner : ConverterId} {cache : Cache} {b : CompilerId} {f : Frame}
    {stack : Stack H .conversion final} (hc : w.converter c = .caching inner cache)
    (hl : (cache.lookup ⟨f.code.id, b⟩ f).1 = none) :
    Effect ⟨w, _, stack, .request (.convert c b f)⟩
      ⟨w.setConverter c (.caching inner (cache.lookup ⟨f.code.id, b⟩ f).2), _,
        .cons (.remember c ⟨f.code.id, b⟩ f) stack, .request (.convert inner b f)⟩
  | remembered {w : World H} {c inner : ConverterId} {cache : Cache} {key : Cache.Key} {f : Frame} {a : Conversion}
    {stack : Stack H .conversion final} (hc : w.converter c = .caching inner cache) :
    Effect ⟨w, _, .cons (.remember c key f) stack, .answer a⟩
      ⟨w.setConverter c (.caching inner (cache.store key f a).2), _, stack, .answer (cache.store key f a).1⟩
  | strayed {w : World H} {c : ConverterId} {key : Cache.Key} {f : Frame} {a : Conversion}
    {stack : Stack H .conversion final} (hc : ∀ inner cache, w.converter c ≠ .caching inner cache) :
    Effect ⟨w, _, .cons (.remember c key f) stack, .answer a⟩ ⟨w, _, stack, .answer a⟩
  | abandoned {k l : Kind} {w : World H} {p : Pending H k l} {stack : Stack H l final} {panic : Panic H} :
    Effect ⟨w, k, .cons p stack, .unwind panic⟩ ⟨w, l, stack, .unwind panic⟩

variable {w w' : World H}

theorem Turns.effect {task task' : Task H k} (h : Turns β w task w' task') (stack : Stack H k final) :
    Effect ⟨w, k, stack, task⟩ ⟨w', k, stack, task'⟩ := by
  cases h with
  | ends | becomes => exact .turn rfl (Job.works_task ..)
  | enters hlimit => exact .entered hlimit
  | recalls hc hl => exact .recalled hc hl
  | compiles => exact .turn (World.books_log _ _ rfl) trivial
  | acts => exact .command
  | _ => exact .turn rfl trivial

theorem Pushes.effect {task : Task H l} {p : Pending H k l} {task' : Task H k} (h : Pushes w task w' p task')
    (stack : Stack H l final) : Effect ⟨w, l, stack, task⟩ ⟨w', k, .cons p stack, task'⟩ := by
  cases h with
  | calls => exact .push rfl id (Job.works_task ..)
  | dispatches => exact .dispatched
  | consults hc hl => exact .consulted hc hl
  | opens => exact .push (World.books_openGuard ..) id trivial
  | _ => exact .push rfl id trivial

theorem Pops.effect {p : Pending H k l} {r : Except (Panic H) (k.Result H)} {task' : Task H l}
    (h : Pops w p r w' task') (stack : Stack H l final) :
    Effect (returning w (.cons p stack) r) ⟨w', l, stack, task'⟩ := by
  cases h with
  | closes => exact .pop (World.books_closeGuard ..) id
  | settles => exact settled_eq .. ▸ .settled
  | @replaces d f r => exact .classified (a := .converted r)
  | @declines d f reason => exact .classified (a := .declined reason)
  | @fails d f cause => exact .classified (a := .failed cause)
  | remembers hc => exact .remembered hc
  | strays hc => exact .strayed hc
  | drops => exact .abandoned
  | _ => exact .pop rfl id

theorem effect_of_step {s t : State H final} (h : s.step β = .running t) : Effect s t := by
  cases step_iff.mp h with
  | turn hturn => exact hturn.effect _
  | push hpush => exact hpush.effect _
  | offer hlimit => exact .offered hlimit
  | pop hpop => exact hpop.effect _

end State

end Interception
