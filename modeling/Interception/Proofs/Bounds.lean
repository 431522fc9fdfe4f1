import Interception.Proofs.Actions
import Interception.Proofs.Failures
import Interception.Proofs.Fetches

namespace Interception

theorem toNat_add_words {x y : Nat} (h : x + y < Nat.pow 2 64) : (UInt64.ofNat x + UInt64.ofNat y).toNat = x + y := by
  rw [← UInt64.ofNat_add]
  exact UInt64.toNat_ofNat_of_lt' h

theorem toInt_add_words {n : Nat} (h : n < Nat.pow 2 62) (rel : Int32) :
    (Int64.ofNat n + rel.toInt64).toInt = n + rel.toInt := by
  have hpow : Nat.pow 2 62 = 4611686018427387904 := rfl
  have hlow := rel.le_toInt
  have hhigh := rel.toInt_lt
  rw [Int64.toInt_add, Int64.toInt_ofNat_of_lt (by omega), Int32.toInt_toInt64]
  exact Int.bmod_eq_of_le (by omega) (by omega)

namespace Instruction

variable {code : Array UInt8} {pos o width : Nat}

theorem Reads.le (h : Reads code pos o width) : o + width ≤ pos + 9 := by
  cases h with
  | opcode => omega
  | @operand op d _ hb hd =>
    have hfields : ∀ field ∈ op.fields, field.1 + field.2 ≤ 8 := by cases op <;> decide
    have hfield := hfields _ hd
    dsimp only at hfield
    omega

end Instruction

def EvalError.Placed (a : Activation) : EvalError → Prop
  | stackUnderflow o => o = a.pc ∧ o < a.code.body.size
  | truncatedOperand o => o ≤ a.code.body.size ∧
      ∃ width, Instruction.Reads a.code.body a.pc o width ∧ a.code.body.size < o + width
  | invalidJump target => target < 0 ∨ (a.code.body.size : Int) < target
  | invalidLocal slot => a.locals.size ≤ slot.toNat
  | _ => True

def EvalError.Located : EvalError → Prop
  | stackUnderflow _ | truncatedOperand _ | invalidJump _ | invalidLocal _ => True
  | _ => False

structure Activation.Within (limit : Nat) (a : Activation) : Prop where
  pc_le : a.pc ≤ a.code.body.size
  depth_lt : a.depth < limit

def Progress.Within (limit : Nat) : Progress → Prop
  | .running b => b.Within limit
  | .calling caller _ => caller.Within limit
  | _ => True

namespace Activation

variable {a : Activation} {p : Program} {g : Progress} {limit next : Nat} {cause : EvalError}

theorem Within.push (h : a.Within limit) (v : Value) : (a.push v).Within limit := ⟨h.pc_le, h.depth_lt⟩

theorem within_start {f : Frame} (h : f.depth < limit) : (start f).Within limit := ⟨Nat.zero_le _, h⟩

theorem within_replace? {f : Frame} {code : Code} (h : replace? code f = some a) (hd : f.depth < limit) :
    a.Within limit := by
  rw [replace?] at h
  split at h <;> cases h
  exact ⟨Nat.zero_le _, hd⟩

theorem step_within (hd : a.depth < limit) : (a.step p).Within limit := by
  by_cases hfails : ∃ cause, a.step p = .finished (.error cause)
  · obtain ⟨cause, hfails⟩ := hfails
    rw [hfails]
    trivial
  · obtain ⟨i, hi, hexecute⟩ := execute_of_step rfl fun cause hc => hfails ⟨cause, hc⟩
    have hnext := Instruction.decode_bound hi
    generalize a.step p = g at hexecute
    cases executes hexecute with
    | proceeds => exact ⟨hnext, hd⟩
    | jumps _ _ ht => exact ⟨(jumpTarget_eq_ok_iff.mp ht).2, hd⟩
    | calls => exact ⟨hnext, hd⟩
    | strands | returns => trivial

theorem step_placed (h : a.step p = .finished (.error cause)) : cause.Placed a := by
  rcases step_error h with ⟨-, rfl⟩ | ⟨hpc, fault, hfault, rfl⟩ | ⟨i, hi, harises⟩
  · trivial
  · cases fault with
    | invalidOpcode byte => trivial
    | truncatedOperand o => exact (Instruction.decode_truncated hpc hfault).2
  · have hroom := Instruction.decode_bound hi
    rw [Instruction.size] at hroom
    cases cause with
    | stackUnderflow o =>
      obtain rfl : o = a.pc := harises
      exact ⟨rfl, by omega⟩
    | truncatedOperand o => exact harises.elim
    | invalidJump target => exact harises
    | invalidLocal slot => exact harises
    | _ => trivial

theorem step_call {function : UInt32} {argc : UInt8}
    (hi : Instruction.decode a.code.body a.pc = .ok (.call function argc)) :
    a.step p = .finished (.error (.stackUnderflow a.pc)) ↔ a.operands.length < argc.toNat := by
  rw [step, advance_of_decode hi, execute, call]
  by_cases hargc : a.operands.length < argc.toNat
  · rw [if_pos hargc]
    exact iff_of_true rfl hargc
  · rw [if_neg hargc]
    apply iff_of_false _ hargc
    intro h
    cases hfunction : p.function? function with
    | none =>
      rw [hfunction] at h
      cases h
    | some code =>
      simp only [hfunction] at h
      by_cases hparams : argc.toNat = code.params
      · rw [if_pos hparams] at h
        cases hframe : Frame.make? code (a.operands.take argc.toNat).reverse.toArray (a.depth + 1) with
        | none =>
          rw [hframe] at h
          cases h
        | some callee =>
          rw [hframe] at h
          cases h
      · rw [if_neg hparams] at h
        cases h

theorem step_calling {caller : Activation} {callee : Frame} (h : a.step p = .calling caller callee) :
    ∃ function argc, Instruction.decode a.code.body a.pc = .ok (.call function argc) ∧
      argc.toNat + caller.operands.length = a.operands.length := by
  obtain ⟨i, hi, hexecute⟩ := execute_of_step h (by simp)
  cases executes hexecute with
  | @calls function argc _ _ hargc =>
    refine ⟨function, argc, hi, ?_⟩
    rw [List.length_drop]
    omega

end Activation

structure Activation.InBounds (a : Activation) (p : Program) (limit : Nat) : Prop where
  within : a.Within limit
  reads : a.code.body.size < Nat.pow 2 62 → ∀ o width, Instruction.Reads a.code.body a.pc o width →
    (UInt64.ofNat o + UInt64.ofNat width).toNat = o + width
  jumps : a.code.body.size < Nat.pow 2 62 → ∀ i rel, Instruction.decode a.code.body a.pc = .ok i →
    i.distance? = some rel → (Int64.ofNat a.code.body.size).toInt = a.code.body.size ∧
      (Int64.ofNat (a.pc + i.size) + rel.toInt64).toInt = ((a.pc + i.size : Nat) : Int) + rel.toInt
  deepens : limit < Nat.pow 2 64 → (UInt64.ofNat a.depth + 1).toNat = a.depth + 1
  follows : ∀ b, a.Follows p b → b.code = a.code ∧ b.pc ≤ a.code.body.size
  splits : ∀ function argc, Instruction.decode a.code.body a.pc = .ok (.call function argc) →
    (a.step p = .finished (.error (.stackUnderflow a.pc)) ↔ a.operands.length < argc.toNat)
  calls : ∀ caller callee, a.step p = .calling caller callee →
    ∃ function argc, Instruction.decode a.code.body a.pc = .ok (.call function argc) ∧
      argc.toNat + caller.operands.length = a.operands.length
  errors : ∀ cause, a.step p = .finished (.error cause) → cause.Placed a

theorem Activation.Within.inBounds {a : Activation} {limit : Nat} (h : a.Within limit) (p : Program) :
    a.InBounds p limit := by
  have hpc := h.pc_le
  have hdepth := h.depth_lt
  have hpow : Nat.pow 2 62 = 4611686018427387904 := rfl
  have hpow' : Nat.pow 2 64 = 18446744073709551616 := rfl
  refine ⟨h, ?_, ?_, ?_, ?_, ?_, ?_, ?_⟩
  · intro hsize o width hreads
    have hle := hreads.le
    exact toNat_add_words (by omega)
  · intro hsize i rel hi _
    have hroom := Instruction.decode_bound hi
    exact ⟨Int64.toInt_ofNat_of_lt (by omega), toInt_add_words (by omega) rel⟩
  · intro hlimit
    exact toNat_add_words (y := 1) (by omega)
  · intro b hb
    obtain ⟨hcode, -⟩ := hb.decoded
    have hstep := step_within (p := p) hdepth
    refine ⟨hcode, hcode ▸ ?_⟩
    cases hb with
    | running hrunning =>
      rw [hrunning] at hstep
      exact hstep.pc_le
    | returned v hcalling =>
      rw [hcalling] at hstep
      exact hstep.pc_le
  · exact fun function argc hi => step_call hi
  · exact fun caller callee hcalling => step_calling hcalling
  · exact fun cause hcause => step_placed hcause

variable {H : Host} {k l final : Kind} {β : Behaviour H} {w w' : World H} {e : EvaluatorId}

def Task.Within (w : World H) : {k : Kind} → Task H k → Prop
  | _, .run e a => a.Within (w.evaluator e).maxDepth
  | k, .script _ => k ≠ .evaluation
  | _, _ => True

def Pending.Within (w : World H) : {k l : Kind} → Pending H k l → Prop
  | _, _, .resume e caller => caller.Within (w.evaluator e).maxDepth
  | _, _, .settle e f => f.depth < (w.evaluator e).maxDepth
  | _, l, .proceed _ => l ≠ .evaluation
  | _, _, _ => True

def Stack.Within (w : World H) : {k : Kind} → Stack H k final → Prop
  | _, .nil => True
  | _, .cons p stack => p.Within w ∧ stack.Within w

structure State.Within (s : State H final) : Prop where
  task : s.task.Within s.world
  stack : s.stack.Within s.world

theorem World.KeepsEvaluators.maxDepth_eq (h : w.KeepsEvaluators w') (hpos : 0 < (w.evaluator e).maxDepth) :
    (w'.evaluator e).maxDepth = (w.evaluator e).maxDepth :=
  congrArg (fun setup => setup.2.2) (h e (allocated_of_maxDepth_pos hpos)).2

theorem Activation.Within.keeps {a : Activation} (h : a.Within (w.evaluator e).maxDepth) (hw : w.KeepsEvaluators w') :
    a.Within (w'.evaluator e).maxDepth := by
  rwa [hw.maxDepth_eq (Nat.zero_lt_of_lt h.depth_lt)]

theorem Pending.Within.keeps {p : Pending H k l} (h : p.Within w) (hw : w.KeepsEvaluators w') : p.Within w' := by
  cases p with
  | resume e caller => exact Activation.Within.keeps h hw
  | settle e f =>
    have hd : f.depth < (w.evaluator e).maxDepth := h
    rwa [Within, hw.maxDepth_eq (Nat.zero_lt_of_lt hd)]
  | proceed next => exact h
  | _ => trivial

theorem Stack.Within.keeps {k : Kind} {stack : Stack H k final} (h : stack.Within w) (hw : w.KeepsEvaluators w') :
    stack.Within w' := by
  induction stack with
  | nil => trivial
  | cons p stack ih => exact ⟨h.1.keeps hw, ih h.2⟩

theorem Task.within_ofResult (r : Except (Panic H) (k.Result H)) : (Task.ofResult r).Within w := by
  cases r <;> trivial

theorem Job.within_task {job job' : Job} (hm : w.move e job = .becomes job')
    (hj : (job.task e : Task H .evaluation).Within w) : (job'.task e : Task H .evaluation).Within w := by
  rw [World.move] at hm
  cases job with
  | call function args =>
    rw [move] at hm
    split at hm
    · cases hm
    · split at hm
      · split at hm <;> cases hm
        trivial
      · cases hm
  | frame f => exact absurd hm frame_becomes
  | body a =>
    have ha : a.Within (w.evaluator e).maxDepth := hj
    have hstep := Activation.step_within (p := (w.evaluator e).program) ha.depth_lt
    rw [move] at hm
    split at hm <;> cases hm
    next hrunning =>
      rw [hrunning] at hstep
      exact hstep

theorem Job.ends_located {p : Program} {maxDepth : Nat} {job : Job} {cause : EvalError}
    (hm : job.move p maxDepth = .ends (.result (.error cause))) (hc : cause.Located) :
    ∃ a, job = .body a ∧ a.step p = .finished (.error cause) := by
  cases job with
  | call function args =>
    rw [move] at hm
    split at hm
    · cases hm
      exact hc.elim
    · split at hm
      · split at hm <;> cases hm
      · cases hm
        exact hc.elim
  | frame f =>
    rw [move] at hm
    split at hm <;> cases hm
    exact hc.elim
  | body a =>
    rw [move] at hm
    split at hm <;> cases hm
    next hstep => exact ⟨a, rfl, hstep⟩

theorem World.settle_within {f : Frame} (hd : f.depth < (w.evaluator e).maxDepth)
    (d : Except (Panic H) (Except HookError Decision)) : ((w.settle e f d).task e).Within (w.settle e f d).world := by
  have hs := w.settles e f d
  have hkept := World.covers_keepsEvaluators.settle w e f d
  generalize w.settle e f d = s at hs hkept ⊢
  cases hs with
  | panics | fails | strands => trivial
  | falls | misses => exact (Activation.within_start hd).keeps hkept
  | replaces _ ha => exact (Activation.within_replace? ha hd).keeps hkept

theorem World.settle_error {f : Frame} {d : Except (Panic H) (Except HookError Decision)} {cause : EvalError}
    (h : w.settle e f d = .ends w' (.ok (.error cause))) : ∃ hook, cause = .hook hook := by
  cases World.settle_eq_iff.mp h with
  | fails => exact ⟨_, rfl⟩

theorem World.Brings.kind_ne {q : Request H k} {p : Script H (k.Result H)} (hp : w.Brings β q p) :
    k ≠ .evaluation := by
  cases hp <;> decide

namespace State

variable {s t : State H final}

theorem Turns.within {task task' : Task H k} (h : Turns β w task w' task') (ht : task.Within w) :
    task'.Within w' := by
  cases h with
  | @ends e job q hm => exact Task.within_ofResult (k := .evaluation) _
  | @becomes e job job' hm => exact Job.within_task hm ht
  | enters hlimit => exact (Activation.within_start hlimit).keeps (World.covers_keepsEvaluators.setUsage w _ _)
  | brings hp => exact hp.kind_ne
  | acts => exact ht
  | _ => trivial

theorem Pushes.within {task : Task H l} {p : Pending H k l} {task' : Task H k} (h : Pushes w task w' p task')
    (ht : task.Within w) : task'.Within w' ∧ p.Within w' := by
  cases h with
  | @calls e job caller callee hm =>
    obtain ⟨a, rfl, ha⟩ := Job.calls_iff.mp hm
    have hbody : a.Within (w.evaluator e).maxDepth := ht
    have hstep := Activation.step_within (p := (w.evaluator e).program) hbody.depth_lt
    rw [ha] at hstep
    exact ⟨trivial, hstep⟩
  | asks => exact ⟨trivial, ht⟩
  | _ => exact ⟨trivial, trivial⟩

theorem Pops.within {p : Pending H k l} {r : Except (Panic H) (k.Result H)} {task' : Task H l}
    (h : Pops w p r w' task') (hp : p.Within w) : task'.Within w' := by
  cases h with
  | closes | aborts => exact Task.within_ofResult _
  | resumes => exact Activation.Within.push hp _
  | settles => exact World.settle_within hp _
  | proceeds => exact hp
  | _ => trivial

theorem Within.step (h : s.Within) (hst : s.step β = .running t) : t.Within := by
  obtain ⟨htask, hstack⟩ := h
  cases step_iff.mp hst with
  | turn hturn => exact ⟨hturn.within htask, hstack.keeps (World.covers_keepsEvaluators.turns hturn)⟩
  | push hpush =>
    obtain ⟨htask', hp⟩ := hpush.within htask
    exact ⟨htask', hp, hstack.keeps (World.covers_keepsEvaluators.pushes hpush)⟩
  | @offer w e f h stack hlimit hs =>
    have hoffering := World.covers_keepsEvaluators.offering w e
    have hsettle : (Pending.settle e f : Pending H .decision .evaluation).Within w := hlimit
    exact ⟨trivial, trivial, hsettle.keeps hoffering, hstack.keeps hoffering⟩
  | pop hpop => exact ⟨hpop.within hstack.1, hstack.2.keeps (World.covers_keepsEvaluators.pops hpop)⟩

theorem within_of_reaches {q : Request H final} (hs : Reaches β (ofRequest w q) s) : s.Within :=
  hs.induct (fun _ _ hstep h => h.step hstep) ⟨trivial, trivial⟩

variable {cause : EvalError}

theorem raises?_eq_some_iff :
    s.raises? = some cause ↔ ∃ w stack, s = ⟨w, .evaluation, stack, .answer (.error cause)⟩ := by
  constructor
  · intro h
    unfold raises? at h
    split at h <;> cases h
    exact ⟨_, _, rfl⟩
  · rintro ⟨w, stack, rfl⟩
    rfl

theorem raises_step (h : s.Within) (hst : s.step β = .running t) (ht : t.raises? = some cause) (hc : cause.Located) :
    s.raises? = some cause ∨ ∃ w stack e a, s = ⟨w, _, stack, .run e a⟩ ∧
      a.step (w.evaluator e).program = .finished (.error cause) := by
  obtain ⟨w₁, stack₁, ht⟩ := raises?_eq_some_iff.mp ht
  cases step_iff.mp hst with
  | @turn k w w' stack task task' hturn =>
    cases hturn with
    | @ends e job q hm =>
      rcases q with r | _ <;> cases ht
      obtain ⟨a, rfl, ha⟩ := Job.ends_located hm hc
      exact .inr ⟨_, _, e, a, rfl, ha⟩
    | @becomes e job job' => cases job' <;> cases ht
    | returns =>
      cases ht
      exact absurd rfl h.task
    | _ => cases ht
  | push hpush => cases hpush <;> cases ht
  | offer => cases ht
  | @pop k l w w' stack p r task' hpop =>
    cases hpop with
    | @closes k s displaced r =>
      rcases r with panic | a <;> cases ht
      exact .inl rfl
    | @aborts e caller r =>
      rcases r with panic | a <;> cases ht
      exact .inl rfl
    | @settles e f d =>
      cases hsettle : w.settle e f d with
      | runs w' a =>
        rw [hsettle] at ht
        cases ht
      | ends w' r =>
        rw [hsettle] at ht
        rcases r with panic | a <;> cases ht
        obtain ⟨hook, rfl⟩ := World.settle_error hsettle
        exact hc.elim
    | _ => cases ht

theorem raised_by_body {w : World H} {q : Request H final} (hs : Reaches β (ofRequest w q) s)
    (hr : s.raises? = some cause) (hc : cause.Located) :
    ∃ w' stack e a, Reaches β (ofRequest w q) ⟨w', _, stack, .run e a⟩ ∧
      a.step (w'.evaluator e).program = .finished (.error cause) := by
  suffices hraised : Reaches β (ofRequest w q) s ∧ (s.raises? = some cause →
      ∃ w' stack e a, Reaches β (ofRequest w q) ⟨w', _, stack, .run e a⟩ ∧
        a.step (w'.evaluator e).program = .finished (.error cause)) from hraised.2 hr
  refine hs.induct (I := fun s => Reaches β (ofRequest w q) s ∧ (s.raises? = some cause →
      ∃ w' stack e a, Reaches β (ofRequest w q) ⟨w', _, stack, .run e a⟩ ∧
        a.step (w'.evaluator e).program = .finished (.error cause))) ?_ ⟨.refl, fun hr => ?_⟩
  · rintro u v huv ⟨hu, hraised⟩
    refine ⟨hu.trans (.step huv), fun hr => ?_⟩
    rcases raises_step (within_of_reaches hu) huv hr hc with hr | ⟨w', stack, e, a, rfl, hstep⟩
    · exact hraised hr
    · exact ⟨w', stack, e, a, hu, hstep⟩
  · obtain ⟨v, stack, hu⟩ := raises?_eq_some_iff.mp hr
    cases hu

end State

open State

/-- Every body that runs stays in bounds, no frame is evaluated at the depth limit, and an error that tells a place in a
body has been raised by a body that has run. -/
theorem evaluation_stays_in_bounds (w : World H) (q : Request H final) :
    (∀ v (stack : Stack H .evaluation final) e a, Reaches β (ofRequest w q) ⟨v, _, stack, .run e a⟩ →
      a.InBounds (v.evaluator e).program (v.evaluator e).maxDepth) ∧
    (∀ v e h f stack, Reaches β (ofRequest w q) (offer v e h f stack) → f.depth < (v.evaluator e).maxDepth) ∧
    ∀ u cause, Reaches β (ofRequest w q) u → u.raises? = some cause → cause.Located →
      ∃ v stack e a, Reaches β (ofRequest w q) ⟨v, _, stack, .run e a⟩ ∧
        a.step (v.evaluator e).program = .finished (.error cause) := by
  refine ⟨fun v stack e a hrun => ?_, fun v e h f stack hoffer => ?_, fun u cause hu hr hc => raised_by_body hu hr hc⟩
  · have ha : a.Within (v.evaluator e).maxDepth := (within_of_reaches hrun).task
    exact ha.inBounds _
  · have hstack : Stack.Within v _ := (within_of_reaches hoffer).stack
    exact hstack.2.1

open Evaluation

namespace FarJump

def program : Program := .ofSources [⟨"far", 0, 0, #[0x30, 100, 0, 0, 0]⟩]

theorem evaluation_stays_in_bounds_far : (Int64.ofNat 5 + (100 : Int32).toInt64).toInt = 105 ∧
    ∃ v stack e a, Reaches behaviour (ofRequest (world program 1) (.evaluate evaluator 0 #[])) ⟨v, _, stack, .run e a⟩ ∧
      a.step (v.evaluator e).program = .finished (.error (.invalidJump 105)) ∧ (a.code.body.size : Int) < 105 := by
  obtain ⟨hbody, -, herror⟩ := evaluation_stays_in_bounds (β := behaviour) (world program 1) (.evaluate evaluator 0 #[])
  constructor
  · have hin := hbody _ _ _ _ ⟨2, rfl⟩
    exact (hin.jumps (by decide) (.jump 100) 100 rfl rfl).2
  · obtain ⟨v, stack, e, a, hreach, hstep⟩ := herror _ (.invalidJump 105) ⟨3, rfl⟩ rfl trivial
    have hplaced : (EvalError.invalidJump 105).Placed a := (hbody v stack e a hreach).errors _ hstep
    exact ⟨v, stack, e, a, hreach, hstep, hplaced.resolve_left (by decide)⟩

end FarJump

end Interception
