import Interception.Script

namespace Interception

variable {H : Host}

def Evaluator.setup (e : Evaluator) : Program × SlotId × Nat := (e.program, e.slot, e.maxDepth)

namespace World

variable {w w' : World H}

def fixtures (w : World H) : Table (Handler H) × Table (Compiler H) × Table Evaluator :=
  (w.handlers, w.compilers, w.evaluators)

theorem handler_of_fixtures (h : w'.fixtures = w.fixtures) (i : HandlerId) : w'.handler i = w.handler i :=
  congrArg (fun t => t.1.get i.index) h

theorem compiler_of_fixtures (h : w'.fixtures = w.fixtures) (b : CompilerId) : w'.compiler b = w.compiler b :=
  congrArg (fun t => t.2.1.get b.index) h

theorem evaluator_of_fixtures (h : w'.fixtures = w.fixtures) (e : EvaluatorId) : w'.evaluator e = w.evaluator e :=
  congrArg (fun t => t.2.2.get e.index) h

@[simp] theorem fixtures_log (w : World H) (level : Level) (message : Message) :
    (w.log level message).fixtures = w.fixtures := by
  unfold log; split <;> rfl

@[simp] theorem fixtures_recordTally (w : World H) (d : Dispatch) (event : Tally.Event) :
    (w.recordTally d event).fixtures = w.fixtures := by
  unfold recordTally; split <;> rfl

@[simp] theorem fixtures_openGuard (w : World H) (s : SlotId) (h : Hook) :
    (w.openGuard s h).fixtures = w.fixtures := fixtures_log ..

@[simp] theorem fixtures_closeGuard (w : World H) (s : SlotId) (h : Hook) :
    (w.closeGuard s h).fixtures = w.fixtures := fixtures_log ..

structure IgnoresScopes {α : Type} (f : World H → α) : Prop where
  install : ∀ w s h, f (w.install s h) = f w
  setScope : ∀ w s scope, f (w.setScope s scope) = f w
  logEntered : ∀ w displaced, f (w.log .trace (.scopeEntered displaced)) = f w
  logExited : ∀ w restoring, f (w.log .trace (.scopeExited restoring)) = f w
  logDropped : ∀ w, f (w.log .warn .scopeDropped) = f w

namespace IgnoresScopes

variable {α : Type} {f : World H → α} (hf : IgnoresScopes f) (w : World H) (s : ScopeId)

include hf

theorem enter : f (w.enter s).2 = f w := by
  simp only [World.enter]
  cases (w.scope s).displaced with
  | none => rw [hf.setScope, hf.logEntered, hf.install]
  | some displaced => rfl

theorem exit : f (w.exit s).2 = f w := by
  simp only [World.exit]
  cases (w.scope s).displaced with
  | none => rfl
  | some displaced => rw [hf.install, hf.logExited, hf.setScope]

theorem drop : f (w.drop s) = f w := by
  rw [World.drop]
  split
  · rw [hf.exit, hf.logDropped]
  · rfl

end IgnoresScopes

theorem fixtures_ignoresScopes : IgnoresScopes (fixtures (H := H)) where
  install _ _ _ := rfl
  setScope _ _ _ := rfl
  logEntered w _ := fixtures_log w ..
  logExited w _ := fixtures_log w ..
  logDropped w := fixtures_log w ..

@[simp] theorem fixtures_enter (w : World H) (s : ScopeId) : (w.enter s).2.fixtures = w.fixtures :=
  fixtures_ignoresScopes.enter w s

@[simp] theorem fixtures_exit (w : World H) (s : ScopeId) : (w.exit s).2.fixtures = w.fixtures :=
  fixtures_ignoresScopes.exit w s

@[simp] theorem fixtures_drop (w : World H) (s : ScopeId) : (w.drop s).fixtures = w.fixtures :=
  fixtures_ignoresScopes.drop w s

@[simp] theorem fixtures_invalidate (w : World H) (c : ConverterId) (code : CodeId) :
    ((Command.invalidate c code).run w).2.fixtures = w.fixtures := by
  simp only [Command.run]
  cases w.converter c <;> rfl

@[simp] theorem evaluator_setUsage_self (w : World H) (e : EvaluatorId) (usage : Usage) :
    (w.setUsage e usage).evaluator e = { w.evaluator e with usage } := by
  simp [setUsage, evaluator]

theorem evaluator_setUsage_ne (w : World H) {e e' : EvaluatorId} (usage : Usage) (h : e ≠ e') :
    (w.setUsage e usage).evaluator e' = w.evaluator e' := by
  have : e.index ≠ e'.index := fun he => h (by cases e; cases e'; simp_all)
  simp [setUsage, evaluator, Table.get_set_ne _ _ this]

end World

end Interception
