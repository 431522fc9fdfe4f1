import Interception.Proofs.Computes
import Interception.Proofs.Emissions

namespace Interception

namespace Bytecode

def listing (is : List Instruction) : Builder := is.foldl Builder.emit {}

theorem lists_listing (is : List Instruction) : Lists (listing is).code 0 is := by
  suffices h : ∀ (b : Builder) js, Lists b.code 0 js → Lists (is.foldl Builder.emit b).code 0 (js ++ is) from
    h {} [] rfl
  induction is with
  | nil =>
    intro b js h
    rwa [List.append_nil]
  | cons i is ih =>
    intro b js h
    have hnext := ih (b.emit i) (js ++ [i]) (h.emit i)
    rwa [List.append_assoc] at hnext

def forwarding (n : Nat) (function : UInt32) : List Instruction :=
  (List.range' 0 n).map (fun i => .loadLocal (UInt16.ofNat i)) ++ [.call function (UInt8.ofNat n), .ret]

end Bytecode

def Program.frameFor (p : Program) (function : UInt32) (args : Array Value) (depth : Nat) : Except Ending Frame :=
  match p.function? function with
  | none => .error (.result (.error (.unknownFunction function)))
  | some code =>
    if args.size = code.params then
      match Frame.make? code args depth with
      | some f => .ok f
      | none => .error .noRoom
    else .error (.result (.error (.arityMismatch code.name code.params args.size)))

theorem Frame.locals_of_make? {code : Code} {args : Array Value} {depth : Nat} {f : Frame}
    (h : Frame.make? code args depth = some f) {i : Nat} (hi : i < args.size) : f.locals[i]? = args[i]? := by
  rw [Frame.make?] at h
  split at h
  · cases h
    exact Array.getElem?_append_left hi
  · cases h

namespace Activation

variable {a : Activation} {p : Program} {maxDepth : Nat} {v : Value}

theorem step_loadLocal {slot : UInt16} (hi : Instruction.decode a.code.body a.pc = .ok (.loadLocal slot))
    (hv : a.locals[slot.toNat]? = some v) :
    a.step p = .running { a with pc := a.pc + 3, operands := v :: a.operands } := by
  simp only [step, advance_of_decode hi, execute, hv]
  rfl

theorem step_ret (hi : Instruction.decode a.code.body a.pc = .ok .ret) : (a.push v).step p = .finished (.ok v) := by
  have hpush : Instruction.decode (a.push v).code.body (a.push v).pc = .ok .ret := hi
  simp only [step, advance_of_decode hpush]
  rfl

theorem move_call {function : UInt32} {argc : UInt8} {vs rest : List Value}
    (hi : Instruction.decode a.code.body a.pc = .ok (.call function argc)) (hargc : argc.toNat = vs.length)
    (hs : a.operands = vs.reverse ++ rest) : (Job.body a).move p maxDepth =
    match p.frameFor function vs.toArray (a.depth + 1) with
    | .ok callee => .calls { a with pc := a.pc + 6, operands := rest } callee
    | .error q => .ends q := by
  have hlength : ¬(vs.reverse ++ rest).length < vs.length := by simp
  have htake : ((vs.reverse ++ rest).take vs.length).reverse = vs := by simp
  have hdrop : (vs.reverse ++ rest).drop vs.length = rest := by simp
  simp only [Job.move, step, advance_of_decode hi, execute, call, hs, hargc, if_neg hlength, htake, hdrop,
    Program.frameFor, List.size_toArray]
  cases p.function? function with
  | none => rfl
  | some code =>
    dsimp only
    by_cases hparams : vs.length = code.params
    · simp only [if_pos hparams]
      cases Frame.make? code vs.toArray (a.depth + 1) <;> rfl
    · simp only [if_neg hparams]

end Activation

namespace Computes

variable {p : Program} {maxDepth n : Nat} {q : Ending} {a caller : Activation} {callee : Frame}
  {is : List Instruction}

theorem tail_call_iff (hm : (Job.body a).move p maxDepth = .calls caller callee)
    (hret : Instruction.decode caller.code.body caller.pc = .ok .ret) :
    Computes p maxDepth (.body a) n q ↔ Computes p maxDepth (.frame callee) n q := by
  have hends (v : Value) : (Job.body (caller.push v)).move p maxDepth = .ends (.result (.ok v)) := by
    rw [Job.move, Activation.step_ret hret]
  constructor
  · intro h
    rcases h.calls_cases hm with ⟨k, v, m, rfl, hc, hb⟩ | ⟨hc, -⟩
    · obtain ⟨rfl, rfl⟩ := (ends_iff (hends v)).mp hb
      exact hc
    · exact hc
  · intro h
    by_cases hv : ∃ v, q = .result (.ok v)
    · obtain ⟨v, rfl⟩ := hv
      exact .returns hm h (.ends (hends v))
    · exact .aborts hm h fun v he => hv ⟨v, he⟩

theorem loads_iff {vs : List Value} {start : Nat} (hstart : start + vs.length ≤ 65536)
    (hl : Bytecode.Lists a.code.body a.pc
      ((List.range' start vs.length).map (fun i => .loadLocal (UInt16.ofNat i)) ++ is))
    (hv : ∀ i, i < vs.length → a.locals[start + i]? = vs[i]?) :
    Bytecode.Lists a.code.body (a.pc + 3 * vs.length) is ∧
      (Computes p maxDepth (.body a) n q ↔ Computes p maxDepth
        (.body { a with pc := a.pc + 3 * vs.length, operands := vs.reverse ++ a.operands }) n q) := by
  induction vs generalizing a start with
  | nil => exact ⟨hl, Iff.rfl⟩
  | cons v vs ih =>
    rw [List.length_cons] at hstart hv
    obtain ⟨hi, hl⟩ := hl
    have hslot : (UInt16.ofNat start).toNat = start := UInt16.toNat_ofNat_of_lt' (show start < 65536 by omega)
    have hload : a.locals[(UInt16.ofNat start).toNat]? = some v := by
      rw [hslot]
      exact hv 0 (by omega)
    let loaded : Activation := { a with pc := a.pc + 3, operands := v :: a.operands }
    have hm : (Job.body a).move p maxDepth = .becomes (.body loaded) := by
      rw [Job.move, Activation.step_loadLocal hi hload]
    have hnext (i : Nat) (hlt : i < vs.length) : a.locals[start + 1 + i]? = vs[i]? := by
      rw [Nat.add_right_comm]
      exact hv (i + 1) (by omega)
    -- what is loaded first ends up deepest, so the rest is loaded on top of it
    obtain ⟨hrest, hiff⟩ := ih (a := loaded) (by omega) hl hnext
    have hpc : a.pc + 3 + 3 * vs.length = a.pc + 3 * (v :: vs).length := by
      rw [List.length_cons]
      omega
    refine ⟨hpc ▸ hrest, (becomes_iff hm).trans ?_⟩
    simpa only [hpc, loaded, List.reverse_cons, List.append_assoc, List.singleton_append] using hiff

end Computes

def CallComputes (p : Program) (maxDepth : Nat) (function : UInt32) (args : Array Value) (depth n : Nat)
    (q : Ending) : Prop :=
  match p.frameFor function args depth with
  | .ok f => Computes p maxDepth (.frame f) n q
  | .error q' => q' = q ∧ n = 0

theorem Computes.forwarding_iff {p : Program} {maxDepth depth n : Nat} {q : Ending} {function : UInt32} {g : Code}
    {vs : List Value} {f : Frame} (hd : depth < maxDepth) (hvs : vs.length ≤ 255)
    (hbody : Bytecode.Lists g.body 0 (Bytecode.forwarding vs.length function))
    (hf : Frame.make? g vs.toArray depth = some f) :
    Computes p maxDepth (.frame f) n q ↔
      ∃ m, n = m + 1 ∧ CallComputes p maxDepth function vs.toArray (depth + 1) m q := by
  obtain ⟨hcode, hdepth⟩ := Frame.of_make? hf
  subst hcode hdepth
  have hm : (Job.frame f).move p maxDepth = .enters f := Job.enters_iff.mpr ⟨rfl, hd⟩
  rw [enters_iff hm]
  refine exists_congr fun m => and_congr_right fun _ => ?_
  have hargs (i : Nat) (hi : i < vs.length) : f.locals[0 + i]? = vs[i]? := by
    rw [Nat.zero_add, Frame.locals_of_make? hf hi]
    exact List.getElem?_toArray
  obtain ⟨⟨hcall, hret, -⟩, hloads⟩ := loads_iff (a := .start f) (show 0 + vs.length ≤ 65536 by omega) hbody hargs
  rw [hloads]
  -- with all arguments on the stack there are only the call and the return left
  have hargc : (UInt8.ofNat vs.length).toNat = vs.length := UInt8.toNat_ofNat_of_lt' (show vs.length < 256 by omega)
  let a : Activation := { Activation.start f with pc := 0 + 3 * vs.length, operands := vs.reverse ++ [] }
  have hmove : (Job.body a).move p maxDepth =
      match p.frameFor function vs.toArray (f.depth + 1) with
      | .ok callee => .calls { a with pc := a.pc + 6, operands := [] } callee
      | .error q => .ends q := Activation.move_call hcall hargc rfl
  simp only [CallComputes]
  cases hcallee : p.frameFor function vs.toArray (f.depth + 1) with
  | ok callee =>
    rw [hcallee] at hmove
    exact tail_call_iff hmove hret
  | error q' =>
    rw [hcallee] at hmove
    exact ends_iff hmove

variable {H : Host} {final : Kind} {β : Behaviour H} {e : EvaluatorId} {w w' : World H} {p : Program}
  {maxDepth depth n : Nat} {q : Ending} {function : UInt32} {args : Array Value}
  {r : Except (Panic H) (Except EvalError Value)}

theorem World.countFrames_succ (w : World H) (e : EvaluatorId) (n : Nat) :
    w.countFrames e (n + 1) = (w.countFrames e n).countFrame e := World.countFrames_add w e n 1

namespace State

def callAt (w : World H) (e : EvaluatorId) (function : UInt32) (args : Array Value) (depth : Nat)
    (stack : Stack H .evaluation final) : State H final :=
  match (w.evaluator e).program.function? function with
  | none => ⟨w, _, stack, .answer (.error (.unknownFunction function))⟩
  | some code =>
    if args.size = code.params then
      match Frame.make? code args depth with
      | some f => ⟨w, _, stack, .request (.evaluateFrame e f)⟩
      | none => ⟨w, _, stack, .unwind .tooManyLocals⟩
    else ⟨w, _, stack, .answer (.error (.arityMismatch code.name code.params args.size))⟩

theorem begin_evaluate (stack : Stack H .evaluation final) :
    begin β w (.evaluate e function args) stack = callAt w e function args 0 stack := rfl

theorem callAt_eq (stack : Stack H .evaluation final) : callAt w e function args depth stack =
    match (w.evaluator e).program.frameFor function args depth with
    | .ok f => ⟨w, _, stack, .request (.evaluateFrame e f)⟩
    | .error q => returning w stack q.lift := by
  simp only [callAt, Program.frameFor]
  cases (w.evaluator e).program.function? function with
  | none => rfl
  | some code =>
    dsimp only
    split
    · cases Frame.make? code args depth <;> rfl
    · rfl

theorem finishes_callAt_iff (hw : w.Equipped e p maxDepth .null) :
    Finishes β (callAt w e function args depth .nil) w' r ↔
      ∃ n q, CallComputes p maxDepth function args depth n q ∧ r = q.lift ∧ w' = w.countFrames e n := by
  rw [callAt_eq, hw.program]
  simp only [CallComputes]
  cases p.frameFor function args depth with
  | ok f =>
    change Finishes β ((Job.frame f).start w e) w' r ↔ _
    exact finishes_iff_computes hw
  | error q =>
    constructor
    · intro h
      obtain ⟨rfl, rfl⟩ := h.unique finishes_returning
      exact ⟨0, q, ⟨rfl, rfl⟩, rfl, rfl⟩
    · rintro ⟨n, q', ⟨rfl, rfl⟩, rfl, rfl⟩
      exact finishes_returning

end State

open State

/-- With interception off, a function that does nothing but pass its arguments on ends as a call from outside that is
made one level deeper, and has counted its own frame besides. -/
theorem forwarded_call_agrees (β : Behaviour H) {g : Code} {vs : List Value} {f : Frame}
    (hw : w.slot (w.evaluator e).slot = .null) (hd : depth < (w.evaluator e).maxDepth) (hvs : vs.length ≤ 255)
    (hbody : Bytecode.Lists g.body 0 (Bytecode.forwarding vs.length function))
    (hf : Frame.make? g vs.toArray depth = some f) :
    (∀ i, (w.evaluator e).program.function? i = some g → g.params = vs.length →
        callAt w e i vs.toArray depth .nil = ofRequest w (.evaluateFrame e f)) ∧
      ∀ w' r, Finishes β (ofRequest w (.evaluateFrame e f)) w' r ↔
        ∃ w₁, Finishes β (callAt w e function vs.toArray (depth + 1) .nil) w₁ r ∧ w' = w₁.countFrame e := by
  constructor
  · intro i hcode hparams
    simp only [callAt, hcode, List.size_toArray, hparams, if_pos, hf]
    rfl
  · intro w' r
    have hequipped : w.Equipped e (w.evaluator e).program (w.evaluator e).maxDepth .null := ⟨rfl, rfl, hw⟩
    change Finishes β ((Job.frame f).start w e) w' r ↔ _
    simp only [finishes_iff_computes hequipped, finishes_callAt_iff hequipped]
    constructor
    · rintro ⟨n, q, hn, rfl, rfl⟩
      obtain ⟨m, rfl, hm⟩ := (Computes.forwarding_iff hd hvs hbody hf).mp hn
      exact ⟨_, ⟨m, q, hm, rfl, rfl⟩, World.countFrames_succ ..⟩
    · rintro ⟨w₁, ⟨m, q, hm, rfl, rfl⟩, rfl⟩
      exact ⟨m + 1, q, (Computes.forwarding_iff hd hvs hbody hf).mpr ⟨m, rfl, hm⟩, rfl,
        (World.countFrames_succ ..).symm⟩

namespace Difference

def difference : Code :=
  .make ⟨1⟩ ⟨"difference", 2, 2, (Bytecode.listing [.loadLocal 0, .loadLocal 1, .sub, .ret]).code⟩

def forward : Code := .make ⟨2⟩ ⟨"forward", 2, 3, (Bytecode.listing (Bytecode.forwarding 2 0)).code⟩

def world : World Evaluation.host := Evaluation.world ⟨#[difference, forward]⟩ 5

theorem forwarded_call_agrees_difference :
    world.slot (world.evaluator Evaluation.evaluator).slot = .null ∧
      Bytecode.Lists forward.body 0 (Bytecode.forwarding 2 0) ∧
      ∃ f, Frame.make? forward #[.int 7, .int 2] 3 = some f ∧
        Finishes Evaluation.behaviour (ofRequest world (.evaluateFrame Evaluation.evaluator f))
          ((world.countFrame Evaluation.evaluator).countFrame Evaluation.evaluator) (.ok (.ok (.int 5))) := by
  have hw : world.slot (world.evaluator Evaluation.evaluator).slot = .null := rfl
  have hbody : Bytecode.Lists forward.body 0 (Bytecode.forwarding 2 0) := Bytecode.lists_listing _
  obtain ⟨f, hf⟩ : ∃ f, Frame.make? forward #[.int 7, .int 2] 3 = some f := ⟨_, rfl⟩
  have hcall : Finishes Evaluation.behaviour (callAt world Evaluation.evaluator 0 #[.int 7, .int 2] 4 .nil)
      (world.countFrame Evaluation.evaluator) (.ok (.ok (.int 5))) := ⟨7, rfl⟩
  have h := forwarded_call_agrees Evaluation.behaviour hw (show 3 < 5 by decide)
    (show [Value.int 7, .int 2].length ≤ 255 by decide) hbody hf
  exact ⟨hw, hbody, f, hf, (h.2 _ _).mpr ⟨_, hcall, rfl⟩⟩

end Difference

end Interception
