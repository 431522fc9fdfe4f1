import Interception.Proofs.Transitions
import Interception.Proofs.Unwinding

namespace Interception

variable {H : Host} {k l final : Kind} {β : Behaviour H} {calm : H.Body → Prop} {w w' : World H}

def Request.Calm (calm : H.Body → Prop) : Request H k → Prop
  | .within _ _ _ => False
  | .perform b | .rescue b => calm b
  | _ => True

def Script.OnlyEvaluates {α : Type} (calm : H.Body → Prop) : Script H α → Prop
  | done _ | panic _ => True
  | act c next => c.LeavesSlots ∧ ∀ a, (next a).OnlyEvaluates calm
  | ask r next => r.Calm calm ∧ ∀ a, (next a).OnlyEvaluates calm

/-- Nothing is said about the bodies that are not calm: they run outside of hooks only. -/
structure Behaviour.OnlyEvaluates (β : Behaviour H) (calm : H.Body → Prop) : Prop where
  decide : ∀ d f, (β.decide d f).OnlyEvaluates calm
  convert : ∀ c f compiler, (β.convert c f compiler).OnlyEvaluates calm
  compile : ∀ c code, (β.compile c code).OnlyEvaluates calm
  perform : ∀ b, calm b → (β.perform b).OnlyEvaluates calm

def Task.Calm (calm : H.Body → Prop) : Task H k → Prop
  | .request r => r.Calm calm
  | .script p => p.OnlyEvaluates calm
  | _ => True

namespace Pending

def asking? (p : Pending H k l) : Option SlotId :=
  match p with
  | .restore s _ => if k = .decision then some s else none
  | _ => none

def Calm (calm : H.Body → Prop) (p : Pending H k l) : Prop :=
  match p with
  | .restore _ _ => k = .decision
  | .proceed next => ∀ a, (next a).OnlyEvaluates calm
  | _ => True

theorem asking?_of_not_isGuard {p : Pending H k l} (h : ¬ p.IsGuard) : p.asking? = none := by
  cases p with
  | restore s displaced => exact absurd trivial h
  | _ => rfl

theorem calm_of_plain {p : Pending H k l} (h : p.Plain) : p.Calm calm := by
  cases p with
  | restore s displaced => exact h.elim
  | proceed next => exact h.elim
  | _ => trivial

end Pending

theorem Task.calm_of_plain {task : Task H k} (h : task.Plain) : task.Calm calm := by
  cases task with
  | request r => cases r <;> trivial
  | script p => exact h.elim
  | _ => trivial

theorem Behaviour.OnlyEvaluates.scripts (hβ : β.OnlyEvaluates calm) {q : Request H k} {p : Script H (k.Result H)}
    (hp : β.Scripts q p) (hq : q.Calm calm) : p.OnlyEvaluates calm := by
  cases hp with
  | decide => exact hβ.decide _ _
  | convert => exact hβ.convert _ _ _
  | compile => exact hβ.compile _ _
  | perform => exact hβ.perform _ hq

namespace Stack

def asking : {k : Kind} → Stack H k final → List SlotId
  | _, .nil => []
  | _, .cons p stack => p.asking?.toList ++ stack.asking

def Calm (calm : H.Body → Prop) : {k : Kind} → Stack H k final → Prop
  | _, .nil => True
  | _, .cons p stack => (stack.asking ≠ [] → p.Calm calm) ∧ stack.Calm calm

theorem asking_append {k : Kind} (stack : Stack H k l) (rest : Stack H l final) :
    (stack.append rest).asking = stack.asking ++ rest.asking := by
  induction stack with
  | nil => rfl
  | cons p stack ih => rw [append, asking, ih, asking, List.append_assoc]

theorem asking_cons {p : Pending H k l} (hp : p.asking? = none) (stack : Stack H l final) :
    (Stack.cons p stack).asking = stack.asking := by
  simp [asking, hp]

end Stack

namespace State

structure Undisturbed (calm : H.Body → Prop) (s : State H final) : Prop where
  single : s.stack.asking.Nodup
  vacated : ∀ r ∈ s.stack.asking, s.world.slot r = .null
  calmStack : s.stack.Calm calm
  calmTask : s.stack.asking ≠ [] → s.task.Calm calm

namespace Undisturbed

variable {stack : Stack H k final} {rest : Stack H l final} {p : Pending H k l} {task task' : Task H k}
  {answer : Task H l}

theorem ofRequest (calm : H.Body → Prop) (w : World H) (q : Request H final) :
    Undisturbed calm (.ofRequest w q) :=
  ⟨.nil, nofun, trivial, fun h => absurd rfl h⟩

theorem quiet (h : Undisturbed calm ⟨w, k, stack, task⟩) (hw : ∀ r ∈ stack.asking, w'.slot r = w.slot r)
    (htask : stack.asking ≠ [] → task'.Calm calm) : Undisturbed calm ⟨w', k, stack, task'⟩ :=
  ⟨h.single, fun r hr => (hw r hr).trans (h.vacated r hr), h.calmStack, htask⟩

theorem push (h : Undisturbed calm ⟨w, l, rest, answer⟩) (hp : p.asking? = none)
    (hcalm : rest.asking ≠ [] → p.Calm calm) (hw : ∀ r ∈ rest.asking, w'.slot r = w.slot r)
    (htask : rest.asking ≠ [] → task.Calm calm) : Undisturbed calm ⟨w', k, .cons p rest, task⟩ := by
  have hasking := Stack.asking_cons hp rest
  refine ⟨?_, fun r hr => ?_, ⟨hcalm, h.calmStack⟩, fun hne => htask (hasking ▸ hne)⟩
  · rw [hasking]
    exact h.single
  · rw [hasking] at hr
    exact (hw r hr).trans (h.vacated r hr)

theorem pop (h : Undisturbed calm ⟨w, k, .cons p rest, task⟩) (hw : ∀ r ∈ rest.asking, w'.slot r = w.slot r)
    (htask : rest.asking ≠ [] → answer.Calm calm) : Undisturbed calm ⟨w', l, rest, answer⟩ := by
  refine ⟨(List.nodup_append.mp h.single).2.1, fun r hr => ?_, h.calmStack.2, htask⟩
  exact (hw r hr).trans (h.vacated r (List.mem_append_right _ hr))

theorem restore_ne {s r : SlotId} {displaced : Hook}
    (h : Undisturbed calm ⟨w, k, .cons (.restore s displaced) stack, task⟩)
    (hr : r ∈ stack.asking) : s ≠ r := by
  obtain rfl : k = .decision := h.calmStack.1 (List.ne_nil_of_mem hr)
  have hfresh : s ∉ stack.asking := (List.nodup_cons.mp h.single).1
  exact fun he => hfresh (he ▸ hr)

theorem close {s : SlotId} {displaced : Hook} (h : Undisturbed calm ⟨w, k, .cons (.restore s displaced) stack, task⟩)
    (htask : stack.asking ≠ [] → task'.Calm calm) : Undisturbed calm ⟨w.closeGuard s displaced, k, stack, task'⟩ := by
  refine h.pop (fun r hr => ?_) htask
  rw [World.slot_closeGuard, if_neg (h.restore_ne hr)]

theorem offered {e : EvaluatorId} {f : Frame} {hook : HandlerId} {stack : Stack H .evaluation final}
    {task : Task H .evaluation} (h : Undisturbed calm ⟨w, _, stack, task⟩)
    (hs : w.slot (w.evaluator e).slot = .active hook) :
    Undisturbed calm (offer (w.offering e) e hook f stack) := by
  -- the slots of the hooks being asked are empty, and this one is not
  have hfresh : (w.evaluator e).slot ∉ stack.asking := by
    intro hr
    have hnull := h.vacated _ hr
    rw [hs] at hnull
    cases hnull
  have hasking : (offer (w.offering e) e hook f stack).stack.asking = (w.evaluator e).slot :: stack.asking :=
    congrArg (· :: stack.asking) (World.evaluator_slot_offering w e)
  refine ⟨?_, fun r hr => ?_, ⟨fun _ => rfl, fun _ => trivial, h.calmStack⟩, fun _ => trivial⟩
  · rw [hasking]
    exact List.nodup_cons.mpr ⟨hfresh, h.single⟩
  · rw [hasking] at hr
    change (World.offering w e).slot r = .null
    rw [World.offering, World.slot_openGuard]
    split
    · rfl
    · next hne =>
      rcases List.mem_cons.mp hr with rfl | hr
      · exact absurd rfl hne
      · exact h.vacated r hr

theorem transition (hβ : β.OnlyEvaluates calm) {s t : State H final} {ms : List ScopeMove}
    (hst : s.Transition β ms t) (h : Undisturbed calm s) : Undisturbed calm t := by
  cases hst with
  | turn hw ht => exact h.quiet (fun r _ => World.slot_of_hooks hw r) fun _ => Task.calm_of_plain ht
  | push hw hp ht =>
    refine h.push (Pending.asking?_of_not_isGuard hp.not_isGuard) (fun _ => Pending.calm_of_plain hp) (fun r _ => ?_)
      fun _ => Task.calm_of_plain ht
    exact World.slot_of_hooks hw r
  | pop hw _ ht => exact h.pop (fun r _ => World.slot_of_hooks hw r) fun _ => Task.calm_of_plain ht
  | host hp => exact h.quiet (fun _ _ => rfl) fun hne => hβ.scripts hp (h.calmTask hne)
  | rescue => exact h.push rfl (fun _ => trivial) (fun _ _ => rfl) h.calmTask
  | command =>
    refine h.quiet (fun r hr => ?_) fun hne => (h.calmTask hne).2 _
    exact Command.slot_run _ (h.calmTask (List.ne_nil_of_mem hr)).1 r
  | ask => exact h.push rfl (fun hne => (h.calmTask hne).2) (fun _ _ => rfl) fun hne => (h.calmTask hne).1
  | proceed => exact h.pop (fun _ _ => rfl) fun hne => h.calmStack.1 hne _
  | offer hs => exact h.offered hs
  | within =>
    refine h.push rfl (fun hne => (h.calmTask hne).elim) (fun r hr => ?_) fun hne => (h.calmTask hne).elim
    exact (h.calmTask (List.ne_nil_of_mem hr)).elim
  | @close k w s displaced stack r =>
    refine h.close fun _ => ?_
    cases r <;> trivial

theorem reaches (hβ : β.OnlyEvaluates calm) {s t : State H final} (hst : Reaches β s t)
    (h : Undisturbed calm s) : Undisturbed calm t := by
  refine hst.induct (fun u v huv hu => ?_) h
  obtain ⟨ms, hms⟩ := transition_of_step huv
  exact hu.transition hβ hms

end Undisturbed

/-- If the state is about to evaluate a frame on the slot, it runs the frame's own code, without a word to a hook. -/
def Bypasses (β : Behaviour H) (t : State H final) (s : SlotId) : Prop :=
  ∀ w e f (stack : Stack H .evaluation final), t = ⟨w, _, stack, .request (.evaluateFrame e f)⟩ →
    (w.evaluator e).slot = s →
    t.step β = .running (if (w.evaluator e).maxDepth ≤ f.depth
      then ⟨w, _, stack, .answer (.error (.recursionLimit (w.evaluator e).maxDepth))⟩
      else ⟨w.countFrame e, _, stack, .run e (.start f)⟩)

theorem bypasses_of_null {t : State H final} {s : SlotId} (h : t.world.slot s = .null) : t.Bypasses β s := by
  rintro w e f stack rfl rfl
  have hnull : (w.countFrame e).slot (w.evaluator e).slot = .null := h
  simp only [step, begin, hnull]

end State

open State

/-- While an evaluator has the hook of its slot decide about a frame, the slot is empty, and whatever is evaluated on it
runs unseen. So at any time no slot has its hook asked more than once. -/
theorem hook_never_intercepts_itself (hβ : β.OnlyEvaluates calm) {q : Request H final} {t : State H final}
    (ht : Reaches β (.ofRequest w q) t) :
    t.stack.asking.Nodup ∧ (∀ s ∈ t.stack.asking, t.world.slot s = .null ∧ t.Bypasses β s) ∧
      ∀ w₁ e f h (stack : Stack H .evaluation final), t = ⟨w₁, _, stack, .request (.evaluateFrame e f)⟩ →
        f.depth < (w₁.evaluator e).maxDepth → w₁.slot (w₁.evaluator e).slot = .active h →
        t.step β = .running (offer (w₁.offering e) e h f stack) ∧
          (offer (w₁.offering e) e h f stack).stack.asking = (w₁.evaluator e).slot :: stack.asking ∧
          ∀ u, Reaches β (.ofRequest (w₁.offering e) (.decide (.active h) f)) u →
            u.world.slot (w₁.evaluator e).slot = .null ∧ u.Bypasses β (w₁.evaluator e).slot := by
  have hinv := (Undisturbed.ofRequest calm w q).reaches hβ ht
  refine ⟨hinv.single, fun s hs => ⟨hinv.vacated s hs, bypasses_of_null (hinv.vacated s hs)⟩, ?_⟩
  rintro w₁ e f h stack rfl hdepth hslot
  have hsame := World.evaluator_slot_offering w₁ e
  have hasking : (offer (w₁.offering e) e h f stack).stack.asking = (w₁.evaluator e).slot :: stack.asking :=
    congrArg (· :: stack.asking) hsame
  have hstep : State.step β ⟨w₁, _, stack, .request (.evaluateFrame e f)⟩ =
      .running (offer (w₁.offering e) e h f stack) := step_iff.mpr (.offer hdepth hslot)
  refine ⟨hstep, hasking, fun u hu => ?_⟩
  -- the hook runs on top of what the evaluator will do with its decision
  have hunder := hu.under (.cons (.restore ((w₁.offering e).evaluator e).slot (.active h)) (.cons (.settle e f) stack))
  have hdeciding := hinv.reaches hβ ((Reaches.step hstep).trans hunder)
  have hnull : u.world.slot (w₁.evaluator e).slot = .null := by
    apply hdeciding.vacated
    change _ ∈ (u.stack.append _).asking
    rw [Stack.asking_append]
    apply List.mem_append_right
    rw [← hsame]
    exact List.mem_cons_self
  exact ⟨hnull, bypasses_of_null hnull⟩

namespace TwoEvaluators

abbrev host : Host := ⟨Unit, Empty, Empty, Empty, EvaluatorId, Empty, Empty, Empty⟩

def bouncing : Behaviour host :=
  ⟨fun e _ => .ask (.evaluate e 0 #[]) fun _ => .done (.ok .fallback), nofun, nofun, nofun⟩

def world : World host :=
  let program := .ofSources [⟨"f", 0, 0, #[0x03, 0x33]⟩]
  { slots := ⟨#[.active ⟨0⟩, .active ⟨1⟩]⟩
    handlers := ⟨#[.custom ⟨1⟩, .custom ⟨0⟩]⟩
    evaluators := ⟨#[{ program, slot := ⟨0⟩, maxDepth := 3 }, { program, slot := ⟨1⟩, maxDepth := 3 }]⟩
    host := () }

theorem hook_never_intercepts_itself_bouncing :
    ∃ w f stack, let t : State host .evaluation := ⟨w, _, stack, .request (.evaluateFrame ⟨0⟩ f)⟩
      Reaches bouncing (.ofRequest world (.evaluate ⟨0⟩ 0 #[])) t ∧ stack.asking = [⟨1⟩, ⟨0⟩] ∧
        stack.asking.Nodup ∧ w.slot ⟨0⟩ = .null ∧ t.Bypasses bouncing ⟨0⟩ := by
  have hβ : bouncing.OnlyEvaluates fun _ => False := ⟨fun _ _ => ⟨trivial, fun _ => trivial⟩, nofun, nofun, nofun⟩
  have ht : Reaches bouncing (.ofRequest world (.evaluate ⟨0⟩ 0 #[]))
      ⟨_, _, _, .request (.evaluateFrame ⟨0⟩ _)⟩ := ⟨9, rfl⟩
  obtain ⟨hsingle, hvacated, -⟩ := hook_never_intercepts_itself hβ ht
  exact ⟨_, _, _, ht, rfl, hsingle, hvacated ⟨0⟩ (.tail _ (.head _))⟩

end TwoEvaluators

end Interception
