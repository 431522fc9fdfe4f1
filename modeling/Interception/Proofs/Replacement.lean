import Interception.Proofs.Calls
import Interception.Proofs.Offers
import Interception.Proofs.Unwinding

namespace Interception

open State

def Evaluation.running (p : Program) (maxDepth : Nat) : Option Activation → State host .evaluation
  | some a => (Job.body a).start (world p maxDepth) evaluator
  | none => ⟨world p maxDepth, _, .nil, .unwind .tooManyLocals⟩

def Decision.Faithful (p : Program) (maxDepth : Nat) (f : Frame) : Decision → Prop
  | .fallback => True
  | .replace r => r.applies f →
    SameOutcome Evaluation.behaviour (Evaluation.running p maxDepth (Activation.replace? r.code f))
      (Evaluation.running p maxDepth (some (.start f)))

variable {H : Host} {final : Kind} {β : Behaviour H} {e : EvaluatorId} {h : HandlerId} {w w' : World H}
  {job : Job} {f : Frame} {r : Except (Panic H) (Except EvalError Value)} {p : Program} {maxDepth : Nat}
  {q : Ending}

def FaithfulAlong (β : Behaviour H) (e : EvaluatorId) (h : HandlerId) (s : State H final) : Prop :=
  ∀ w f stack, Reaches β s (offer w e h f stack) → ∃ w' d,
    Finishes β (ofRequest w (.decide (.active h) f)) w' (.ok (.ok d)) ∧
      d.Faithful (w.evaluator e).program (w.evaluator e).maxDepth f

namespace FaithfulAlong

theorem of_reaches {s t : State H final} (hs : FaithfulAlong β e h s) (ht : Reaches β s t) :
    FaithfulAlong β e h t := Along.of_reaches hs ht

theorem callee {caller : Activation} {callee : Frame} (hs : FaithfulAlong β e h (job.start w e))
    (hm : w.move e job = .calls caller callee) : FaithfulAlong β e h ((Job.frame callee).start w e) :=
  Along.callee hs hm

theorem resumed {caller : Activation} {callee : Frame} {v : Value} (hs : FaithfulAlong β e h (job.start w e))
    (hm : w.move e job = .calls caller callee) (hc : Evaluates β e w (.frame callee) w' (.ok (.ok v))) :
    FaithfulAlong β e h ((Job.body (caller.push v)).start w' e) := Along.resumed hs hm hc

end FaithfulAlong

def Job.Returns (p : Program) (maxDepth : Nat) (job : Job) (q : Ending) : Prop := ∃ n, Computes p maxDepth job n q

theorem finishes_iff_returns (hw : w.Equipped e p maxDepth .null) :
    (∃ w', Finishes β (job.start w e) w' r) ↔ ∃ q, job.Returns p maxDepth q ∧ r = q.lift := by
  simp only [finishes_iff_computes hw]
  constructor
  · rintro ⟨_, n, q, hq, rfl, -⟩
    exact ⟨q, ⟨n, hq⟩, rfl⟩
  · rintro ⟨q, ⟨n, hq⟩, rfl⟩
    exact ⟨_, n, q, hq, rfl, rfl⟩

def Settled.Agrees (p : Program) (maxDepth : Nat) (f : Frame) : Settled H → Prop
  | .runs _ a => a.depth = f.depth ∧
    ∀ q, (Job.body a).Returns p maxDepth q ↔ (Job.body (.start f)).Returns p maxDepth q
  | .ends _ r => ∃ q : Ending, r = q.lift ∧ (Job.body (.start f)).Returns p maxDepth q

theorem Evaluation.running_some_iff (a : Activation) :
    (∃ w, Finishes behaviour (running p maxDepth (some a)) w q.lift) ↔ (Job.body a).Returns p maxDepth q := by
  rw [running, finishes_iff_returns (world_equipped p maxDepth)]
  constructor
  · rintro ⟨q', hq, hlift⟩
    exact Ending.lift_inj hlift ▸ hq
  · intro hq
    exact ⟨q, hq, rfl⟩

theorem World.settle_agrees (w : World H) (e : EvaluatorId) {d : Decision} (hd : d.Faithful p maxDepth f) :
    (w.settle e f (.ok (.ok d))).Agrees p maxDepth f := by
  cases d with
  | fallback => exact ⟨rfl, fun _ => Iff.rfl⟩
  | replace r =>
    rw [settle]
    split
    · next ha =>
      have hsame := hd ha
      split
      · next a hr =>
        rw [hr] at hsame
        refine ⟨?_, fun q => ?_⟩
        · rw [Activation.replace?] at hr
          split at hr <;> cases hr
          rfl
        · rw [← Evaluation.running_some_iff, ← Evaluation.running_some_iff]
          exact hsame q.lift
      · next hr =>
        rw [hr] at hsame
        have hnone : Finishes Evaluation.behaviour (Evaluation.running p maxDepth none) _ Ending.noRoom.lift :=
          ⟨1, rfl⟩
        exact ⟨.noRoom, rfl, Evaluation.running_some_iff _ |>.mp ((hsame _).mp ⟨_, hnone⟩)⟩
    · exact ⟨rfl, fun _ => Iff.rfl⟩

theorem FaithfulAlong.settles (hs : FaithfulAlong β e h (job.start w e)) (hw : w.Equipped e p maxDepth (.active h))
    (hm : w.move e job = .enters f) : ∃ w₁ d,
      Finishes β (ofRequest (w.offering e) (.decide (.active h) f)) w₁ (.ok (.ok d)) ∧
        ((w₁.closeGuard (w.evaluator e).slot (.active h)).settle e f (.ok (.ok d))).Agrees p maxDepth f := by
  have hoffered := hs (w.offering e) f .nil (reaches_offer hm hw.slot .nil)
  simp only [World.evaluator_offering, World.evaluator_countFrame] at hoffered
  rw [hw.program, hw.maxDepth] at hoffered
  obtain ⟨w₁, d, hd, hfaithful⟩ := hoffered
  exact ⟨w₁, d, hd, World.settle_agrees _ e hfaithful⟩

theorem Evaluates.returns_without (he : Evaluates β e w job w' r) (hw : w.Equipped e p maxDepth (.active h))
    (hf : FaithfulAlong β e h (job.start w e)) : ∃ q, job.Returns p maxDepth q ∧ r = q.lift := by
  induction he with
  | ends hm => exact ⟨_, ⟨0, .ends (hw.move _ ▸ hm)⟩, rfl⟩
  | @becomes w job job' _ _ hm _ ih =>
    have hj := reaches_moved β w e .nil job
    rw [hm] at hj
    obtain ⟨q, ⟨n, hq⟩, rfl⟩ := ih hw (hf.of_reaches hj)
    exact ⟨q, ⟨n, .becomes (hw.move _ ▸ hm) hq⟩, rfl⟩
  | plain _ hs => exact absurd (hs.symm.trans hw.slot) (by simp)
  | @decided w job f h' w₁ d w₂ a _ _ hm hs hd ht _ ih =>
    obtain rfl := hw.hook_eq hs
    have hsettled := reaches_settled hm hs hd .nil
    have hrestores := settled_restores hm hs hd
    obtain ⟨w₃, d', hd', hagrees⟩ := hf.settles hw hm
    obtain ⟨rfl, rfl⟩ := hd.unique hd'
    rw [ht] at hsettled hrestores hagrees
    obtain ⟨q, hq, rfl⟩ := ih (hw.of_restores hrestores) (hf.of_reaches hsettled)
    obtain ⟨n, hq⟩ := (hagrees.2 q).mp hq
    exact ⟨q, ⟨n + 1, .enters (hw.move _ ▸ hm) hq⟩, rfl⟩
  | @dropped w job f h' w₁ d _ _ hm hs hd ht =>
    obtain rfl := hw.hook_eq hs
    obtain ⟨w₃, d', hd', hagrees⟩ := hf.settles hw hm
    obtain ⟨rfl, rfl⟩ := hd.unique hd'
    rw [ht] at hagrees
    obtain ⟨q, rfl, n, hq⟩ := hagrees
    exact ⟨q, ⟨n + 1, .enters (hw.move _ ▸ hm) hq⟩, rfl⟩
  | returns hm hc _ ihc ihb =>
    obtain ⟨q, ⟨m, hq⟩, hlift⟩ := ihc hw (hf.callee hm)
    obtain rfl := Ending.lift_eq_ok_iff.mp hlift.symm
    obtain ⟨q, ⟨n, hb⟩, rfl⟩ := ihb (hw.of_restores hc.restores) (hf.resumed hm hc)
    exact ⟨q, ⟨m + n, .returns (hw.move _ ▸ hm) hq hb⟩, rfl⟩
  | aborts hm _ hr ih =>
    obtain ⟨q, ⟨n, hq⟩, rfl⟩ := ih hw (hf.callee hm)
    exact ⟨q, ⟨n, .aborts (hw.move _ ▸ hm) hq fun v hv => hr v (Ending.lift_eq_ok_iff.mpr hv)⟩, rfl⟩

def Follows (β : Behaviour H) (e : EvaluatorId) (h : HandlerId) (p : Program) (maxDepth : Nat)
    (job : Job) : Prop :=
  ∀ w q, w.Equipped e p maxDepth (.active h) → FaithfulAlong β e h (job.start w e) →
    job.Returns p maxDepth q → ∃ w', Evaluates β e w job w' q.lift

theorem body_follows {a : Activation}
    (hcallees : ∀ f : Frame, f.depth = a.depth + 1 → Follows β e h p maxDepth (.frame f)) :
    Follows β e h p maxDepth (.body a) := by
  rintro w q hw hf ⟨n, hn⟩
  generalize hjob : Job.body a = job at hn hf ⊢
  induction hn generalizing a w with
  | ends hm => exact ⟨w, .ends (hw.move _ ▸ hm)⟩
  | @becomes job job' _ _ hm _ ih =>
    subst hjob
    obtain ⟨b, rfl, hb⟩ := Job.of_body_becomes hm
    have hdepth : b.depth = a.depth := congrArg Prod.snd hb
    have hm' := (hw.move _).trans hm
    have hj := reaches_moved β w e .nil (.body a)
    rw [hm'] at hj
    obtain ⟨w', hw'⟩ := ih (fun f hfd => hcallees f (hfd.trans (by rw [hdepth]))) w hw rfl (hf.of_reaches hj)
    exact ⟨w', .becomes hm' hw'⟩
  | enters hm =>
    subst hjob
    exact absurd (Job.enters_iff.mp hm).1 (by simp)
  | @returns job caller callee _ v _ _ hm hc _ _ ihb =>
    subst hjob
    obtain ⟨hcaller, -, hcallee⟩ := Job.of_body_calls hm
    have hdepth : caller.depth = a.depth := congrArg Prod.snd hcaller
    have hm' := (hw.move _).trans hm
    obtain ⟨w₁, hw₁⟩ := hcallees callee hcallee w _ hw (hf.callee hm') ⟨_, hc⟩
    have hnext : ∀ f : Frame, f.depth = (caller.push v).depth + 1 → Follows β e h p maxDepth (.frame f) := by
      intro f hfd
      apply hcallees
      rw [← hdepth]
      exact hfd
    obtain ⟨w', hw'⟩ := ihb hnext w₁ (hw.of_restores hw₁.restores) rfl (hf.resumed hm' hw₁)
    exact ⟨w', .returns hm' hw₁ hw'⟩
  | aborts hm hc hq =>
    subst hjob
    obtain ⟨-, -, hcallee⟩ := Job.of_body_calls hm
    have hm' := (hw.move _).trans hm
    obtain ⟨w₁, hw₁⟩ := hcallees _ hcallee w _ hw (hf.callee hm') ⟨_, hc⟩
    exact ⟨w₁, .aborts hm' hw₁ fun v hv => hq v (Ending.lift_eq_ok_iff.mp hv)⟩

theorem frame_follows (hbody : f.depth < maxDepth → ∀ a : Activation, a.depth = f.depth →
    Follows β e h p maxDepth (.body a)) : Follows β e h p maxDepth (.frame f) := by
  rintro w q hw hf ⟨n, hn⟩
  have hmove := hw.move (.frame f)
  cases hm : (Job.frame f).move p maxDepth with
  | ends q' =>
    obtain ⟨rfl, -⟩ := (Computes.ends_iff hm).mp hn
    exact ⟨w, .ends (hmove.trans hm)⟩
  | becomes job => exact absurd hm Job.frame_becomes
  | calls caller callee =>
    obtain ⟨a, ha, -⟩ := Job.calls_iff.mp hm
    cases ha
  | enters g =>
    obtain ⟨hg, hlimit⟩ := Job.enters_iff.mp hm
    cases hg
    obtain ⟨n, -, hn⟩ := (Computes.enters_iff hm).mp hn
    have hm' := hmove.trans hm
    obtain ⟨w₁, d, hd, hagrees⟩ := hf.settles hw hm'
    have hsettled := reaches_settled hm' hw.slot hd .nil
    have hrestores := settled_restores hm' hw.slot hd
    cases ht : (w₁.closeGuard (w.evaluator e).slot (.active h)).settle e f (.ok (.ok d)) with
    | runs w₂ a =>
      rw [ht] at hsettled hrestores hagrees
      obtain ⟨hdepth, hsame⟩ := hagrees
      obtain ⟨w', hw'⟩ := hbody hlimit a hdepth w₂ q (hw.of_restores hrestores) (hf.of_reaches hsettled)
        ((hsame q).mpr ⟨n, hn⟩)
      exact ⟨w', .decided hm' hw.slot hd ht hw'⟩
    | ends w₂ r =>
      rw [ht] at hagrees
      obtain ⟨q', rfl, m, hq'⟩ := hagrees
      obtain ⟨-, rfl⟩ := hn.unique hq'
      exact ⟨w₂, .dropped hm' hw.slot hd ht⟩

theorem follows_frame (k : Nat) (f : Frame) (hk : maxDepth ≤ f.depth + k) :
    Follows β e h p maxDepth (.frame f) := by
  -- on the room below the limit, as a frame at the limit calls nothing
  induction k generalizing f with
  | zero =>
    apply frame_follows
    intro hlimit
    omega
  | succ k ih =>
    apply frame_follows
    intro _ a ha
    apply body_follows
    intro callee hcallee
    apply ih
    omega

/-- A hook that replaces frames only by code that does the same with interception off is not to be told from no
hook at all. -/
theorem faithful_hook_sameOutcome (β : Behaviour H) (w : World H) (e : EvaluatorId) (h : HandlerId) (f : Frame)
    (hf : FaithfulAlong β e h (ofRequest (w.install (w.evaluator e).slot (.active h)) (.evaluateFrame e f))) :
    SameOutcome β (ofRequest (w.install (w.evaluator e).slot (.active h)) (.evaluateFrame e f))
      (ofRequest (w.install (w.evaluator e).slot .null) (.evaluateFrame e f)) := by
  intro r
  have hhooked := w.equipped_install e (.active h)
  have hplain : (∃ w', Finishes β ((Job.frame f).start (w.install (w.evaluator e).slot .null) e) w' r) ↔
      ∃ q, (Job.frame f).Returns (w.evaluator e).program (w.evaluator e).maxDepth q ∧ r = q.lift :=
    finishes_iff_returns (w.equipped_install e .null)
  apply Iff.trans _ hplain.symm
  constructor
  · rintro ⟨w', hw'⟩
    have he : Evaluates β e (w.install (w.evaluator e).slot (.active h)) (.frame f) w' r :=
      finishes_iff_evaluates.mp hw'
    exact he.returns_without hhooked hf
  · rintro ⟨q, hq, rfl⟩
    obtain ⟨w', hw'⟩ := follows_frame _ f (Nat.le_add_left ..) _ q hhooked hf hq
    exact ⟨w', hw'.finishes⟩

namespace SingleHook

def slower : Code := .make ⟨3⟩ ⟨"slower", 0, 0, #[0x00, 0x03, 0x33]⟩

def rewrite (f : Frame) : Decision :=
  if f.code = .make ⟨2⟩ ⟨"inner", 0, 0, #[0x03, 0x33]⟩ then .replace ⟨slower, .always⟩ else .fallback

def rewriting : Behaviour host := behaviour fun f => .done (.ok (rewrite f))

theorem rewrite_faithful (f : Frame) : (rewrite f).Faithful program 2 f := by
  rw [rewrite]
  split
  · next hf =>
    intro _
    obtain ⟨code, locals, depth, hcode, hlocals⟩ := f
    subst hf
    have hslow : Finishes Evaluation.behaviour (Evaluation.running program 2 (Activation.replace? slower
        ⟨_, locals, depth, hcode, hlocals⟩)) _ (.ok (.ok (.bool true))) := ⟨4, rfl⟩
    have hown : Finishes Evaluation.behaviour (Evaluation.running program 2 (some (.start
        ⟨_, locals, depth, hcode, hlocals⟩))) _ (.ok (.ok (.bool true))) := ⟨3, rfl⟩
    exact hslow.sameOutcome hown
  · trivial

def outerFrame : Frame := ⟨.make ⟨1⟩ ⟨"outer", 0, 0, #[0x32, 1, 0, 0, 0, 0, 0x33]⟩, #[], 0, by decide, by decide⟩

theorem rewriting_faithful : FaithfulAlong rewriting evaluator ⟨0⟩
    (ofRequest ((world program 2).install slot hook) (.evaluateFrame evaluator outerFrame)) := by
  intro w f stack hw
  obtain ⟨-, hhandler⟩ := World.covers_keepsHandlers.reaches hw ⟨0⟩ (by decide)
  obtain ⟨-, hsetup⟩ := World.covers_keepsEvaluators.reaches hw evaluator (by decide)
  have hdecide : Finishes rewriting (ofRequest w (.decide (.active ⟨0⟩) f)) w (.ok (.ok (rewrite f))) := by
    have hcustom : w.handler ⟨0⟩ = .custom () := hhandler
    refine ⟨3, ?_⟩
    simp only [run, ofRequest, step, begin, hcustom]
    rfl
  refine ⟨w, _, hdecide, ?_⟩
  have hp : (w.evaluator evaluator).program = program := congrArg Prod.fst hsetup
  have hd : (w.evaluator evaluator).maxDepth = 2 := congrArg (fun t => t.2.2) hsetup
  rw [hp, hd]
  exact rewrite_faithful f

theorem faithful_hook_sameOutcome_rewriting :
    SameOutcome rewriting (ofRequest ((world program 2).install slot hook) (.evaluateFrame evaluator outerFrame))
        (ofRequest ((world program 2).install slot .null) (.evaluateFrame evaluator outerFrame)) ∧
      ∃ w', Finishes rewriting
        (ofRequest ((world program 2).install slot hook) (.evaluateFrame evaluator outerFrame)) w'
        (.ok (.ok (.bool true))) ∧ (w'.evaluator evaluator).usage.replaced = 1 := by
  refine ⟨?_, _, ⟨30, rfl⟩, rfl⟩
  exact faithful_hook_sameOutcome rewriting (world program 2) evaluator ⟨0⟩ outerFrame rewriting_faithful

end SingleHook

end Interception
