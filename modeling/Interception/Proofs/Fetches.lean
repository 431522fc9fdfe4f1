import Interception.Proofs.Encoding
import Interception.Proofs.LinearWalk
import Interception.Proofs.Visits

namespace Interception

def Opcode.fields : Opcode → List (Nat × Nat)
  | constInt | constFloat => [(0, 8)]
  | loadLocal | storeLocal => [(0, 2)]
  | jump | jumpIfFalse => [(0, 4)]
  | call => [(0, 4), (4, 1)]
  | _ => []

namespace Instruction

variable {code : Array UInt8} {pos start o width : Nat} {op : Opcode} {fault : Fault}

inductive Reads (code : Array UInt8) (pos : Nat) : Nat → Nat → Prop
  | opcode : Reads code pos pos 1
  | operand {op : Opcode} {d width : Nat} (hb : code[pos]? = some op.byte) (hd : (d, width) ∈ op.fields) :
    Reads code pos (pos + 1 + d) width

theorem operand_error (h : operand code width start = .error fault) :
    fault = .truncatedOperand start ∧ code.size < start + width := by
  rw [operand] at h
  split at h
  · cases h
  · next hnone =>
    cases h
    refine ⟨rfl, Nat.lt_of_not_le fun hroom => ?_⟩
    obtain ⟨n, hn⟩ := Bytes.exists_field? hroom
    cases hnone.symm.trans hn

theorem ofOpcode_error (hstart : start ≤ code.size) (h : ofOpcode code start op = .error fault) :
    ∃ d width, (d, width) ∈ op.fields ∧ fault = .truncatedOperand (start + d) ∧ start + d ≤ code.size ∧
      code.size < start + d + width := by
  have single {f : Nat → Instruction} {w : Nat} (hw : (0, w) ∈ op.fields)
      (h : (operand code w start).map f = .error fault) :
      ∃ d width, (d, width) ∈ op.fields ∧ fault = .truncatedOperand (start + d) ∧ start + d ≤ code.size ∧
        code.size < start + d + width := by
    cases ho : operand code w start with
    | ok n => simp [ho, Except.map] at h
    | error fault' =>
      simp only [ho, Except.map, Except.error.injEq] at h
      obtain ⟨hfault, hroom⟩ := operand_error ho
      exact ⟨0, w, hw, h ▸ hfault, hstart, hroom⟩
  cases op with
  | constInt | constFloat | loadLocal | storeLocal | jump | jumpIfFalse => exact single (List.mem_singleton.mpr rfl) h
  | call =>
    cases hf : operand code 4 start with
    | error fault' =>
      simp only [ofOpcode, hf, bind, Except.bind, Except.error.injEq] at h
      obtain ⟨hfault, hroom⟩ := operand_error hf
      exact ⟨0, 4, by decide, h ▸ hfault, hstart, hroom⟩
    | ok function =>
      have hfunction := operand_bound (by omega) hf
      cases ha : operand code 1 (start + 4) with
      | error fault' =>
        simp only [ofOpcode, hf, ha, bind, Except.bind, Except.error.injEq] at h
        obtain ⟨hfault, hroom⟩ := operand_error ha
        exact ⟨4, 1, by decide, h ▸ hfault, hfunction, hroom⟩
      | ok argc => simp [ofOpcode, hf, ha, bind, Except.bind, pure, Except.pure] at h
  | _ => cases h

theorem decode_truncated (hpos : pos < code.size) (h : decode code pos = .error (.truncatedOperand o)) :
    pos < o ∧ o ≤ code.size ∧ ∃ width, Reads code pos o width ∧ code.size < o + width := by
  rw [decode] at h
  split at h
  · next hnone => exact absurd (Array.getElem?_eq_none_iff.mp hnone) (by omega)
  · next b hb =>
    split at h
    · cases h
    · next op hop =>
      obtain ⟨d, width, hd, ho, hle, hroom⟩ := ofOpcode_error (by omega) h
      cases ho
      exact ⟨by omega, hle, width, .operand (hb.trans (congrArg some (Opcode.byte_of_ofByte? hop).symm)) hd, hroom⟩

theorem decode_error (hpos : pos < code.size) (h : decode code pos = .error fault) :
    (∃ b, fault = .invalidOpcode b ∧ code[pos]? = some b) ∨ ∃ o, fault = .truncatedOperand o ∧ pos < o := by
  cases fault with
  | truncatedOperand o => exact .inr ⟨o, rfl, (decode_truncated hpos h).1⟩
  | invalidOpcode b =>
    rw [decode] at h
    split at h
    · cases h
    · next b hb =>
      split at h
      · cases h
        exact .inl ⟨b, rfl, hb⟩
      · obtain ⟨_, _, -, ho, -⟩ := ofOpcode_error (by omega) h
        cases ho

theorem not_jumps_of_call {i : Instruction} (h : i.opcode = .call) : ¬ i.Jumps := by
  cases i with
  | call => exact id
  | _ => cases h

end Instruction

namespace Bytecode

variable {code : Array UInt8} {pos o : Nat}

theorem decode_of_mem {i : Instruction} (h : (o, i) ∈ walkFrom code pos) : Instruction.decode code o = .ok i := by
  induction pos using walkFrom.induct code with
  | case1 pos j hj ih =>
    rw [walkFrom_ok hj] at h
    rcases List.mem_cons.mp h with h | h
    · cases h
      exact hj
    · exact ih h
  | case2 pos fault hf =>
    rw [walkFrom_error hf] at h
    exact absurd h List.not_mem_nil

theorem mem_outline {i : Instruction} (h : (o, i) ∈ walk code) : (o, i.opcode) ∈ outline code := by
  rw [outline, outlineFrom_eq]
  exact List.mem_map.mpr ⟨_, h, rfl⟩

end Bytecode

theorem Frame.lt_of_make?_none {code : Code} {args : Array Value} {depth : Nat}
    (h : Frame.make? code args depth = none) (hargs : args.size ≤ code.params) : maxLocals < code.locals := by
  rw [make?] at h
  split at h
  · cases h
  · have hparams := code.params_le_locals
    omega

namespace Activation

variable {p : Program} {fault : Instruction.Fault}

theorem step_stranded {a : Activation} (h : a.step p = .stranded) :
    ∃ code ∈ p.functions, maxLocals < code.locals := by
  obtain ⟨i, -, hi⟩ := execute_of_step h nofun
  cases executes hi with
  | strands hcode hparams hcallee =>
    refine ⟨_, Program.mem_of_function? hcode, Frame.lt_of_make?_none hcallee ?_⟩
    rw [List.size_toArray, List.length_reverse, List.length_take]
    omega

theorem decode_of_step_error {a : Activation} (h : a.step p = .finished (.error (faultError fault))) :
    a.pc < a.code.body.size ∧ Instruction.decode a.code.body a.pc = .error fault := by
  rcases step_error h with ⟨-, hc⟩ | ⟨hpc, fault', hf, hc⟩ | ⟨i, -, hc⟩
  · cases fault <;> cases hc
  · cases fault <;> cases fault' <;> cases hc <;> exact ⟨hpc, hf⟩
  · cases fault <;> exact hc.elim

end Activation

open State

variable {H : Host} {β : Behaviour H} {w w' : World H} {e e' : EvaluatorId} {a b : Activation}

inductive State.Hosts (e : EvaluatorId) (P : Activation → Prop) : State H .evaluation → Prop
  | running {w : World H} {a : Activation} (ha : P a) : Hosts e P ⟨w, _, .nil, .run e a⟩
  | waiting {s : State H .evaluation} {caller : Activation} (hc : ∀ v, P (caller.push v)) :
    Hosts e P (s.under (.cons (.resume e caller) .nil))
  | ended {w : World H} {r : Except (Panic H) (Except EvalError Value)} : Hosts e P (returning w .nil r)

namespace State

variable {P : Activation → Prop} {s t : State H .evaluation}

theorem Hosts.step
    (hP : ∀ w a b, s = ⟨w, _, .nil, .run e a⟩ → P a → a.Follows (w.evaluator e).program b → P b)
    (h : s.Hosts e P) (hs : s.step β = .running t) : t.Hosts e P := by
  cases h with
  | @running w a ha =>
    obtain rfl := Outcome.running.inj hs
    rw [advance]
    cases hg : a.step (w.evaluator e).program with
    | running b => exact .running (hP w a b rfl ha (.running hg))
    | calling caller callee =>
      exact .waiting (s := ofRequest w (.evaluateFrame e callee)) fun v => hP w a _ rfl ha (.returned v hg)
    | stranded => exact .ended (r := .error .tooManyLocals)
    | finished r => exact .ended (r := .ok r)
  | @waiting u caller hc =>
    cases hu : u.step β with
    | running v =>
      obtain rfl := Outcome.running.inj (hs.symm.trans (step_under hu _))
      exact .waiting hc
    | finished w r =>
      obtain rfl := eq_returning_of_step hu
      by_cases hr : ∃ v, r = .ok (.ok v)
      · obtain ⟨v, rfl⟩ := hr
        obtain rfl := Outcome.running.inj (hs.symm.trans (step_resume w e caller v .nil))
        exact .running (hc v)
      · obtain rfl := Outcome.running.inj (hs.symm.trans (step_resume_of_ne w e caller (not_exists.mp hr) .nil))
        exact .ended
  | @ended w r => cases r <;> cases hs

theorem Hosts.body (h : State.Hosts e P (⟨w, _, .nil, .run e' a⟩ : State H .evaluation)) : e' = e ∧ P a := by
  generalize hs : (⟨w, _, .nil, .run e' a⟩ : State H .evaluation) = s at h
  cases h with
  | running ha =>
    cases hs
    exact ⟨rfl, ha⟩
  | @waiting u caller _ =>
    obtain ⟨w₀, k, stack, task⟩ := u
    cases stack <;> cases hs
  | @ended w r => cases r <;> cases hs

theorem body_induct
    (hP : ∀ w' a b, Reaches β s ⟨w', _, .nil, .run e a⟩ → P a → a.Follows (w'.evaluator e).program b → P b)
    (hs : s.Hosts e P) (hr : Reaches β s ⟨w', _, .nil, .run e' a⟩) : e' = e ∧ P a := by
  suffices hinv : Reaches β s ⟨w', _, .nil, .run e' a⟩ ∧
      State.Hosts e P (⟨w', _, .nil, .run e' a⟩ : State H .evaluation) from hinv.2.body
  refine hr.induct (I := fun t => Reaches β s t ∧ t.Hosts e P) ?_ ⟨.refl, hs⟩
  rintro u v huv ⟨hu, hhosts⟩
  exact ⟨hu.trans (.step huv), hhosts.step (fun w a b hrun => hP w a b (hrun ▸ hu)) huv⟩

end State

/-- The next instruction of the body is one that the walk has met, with the same opcode, unless the body has come to
where the walk stops; only there, and before the last byte, can it meet what cannot be decoded. -/
structure Activation.OnWalk (p : Program) (code : Code) (a : Activation) : Prop where
  code_eq : a.code = code
  fetched : (∃ i, Instruction.decode code.body a.pc = .ok i ∧ (a.pc, i.opcode) ∈ Bytecode.outline code.body) ∨
    a.pc = Bytecode.endFrom code.body 0
  unknown : ∀ byte, a.step p = .finished (.error (.invalidOpcode byte)) →
    a.pc = Bytecode.endFrom code.body 0 ∧ a.pc < code.body.size ∧ code.body[a.pc]? = some byte
  truncated : ∀ offset, a.step p = .finished (.error (.truncatedOperand offset)) →
    a.pc = Bytecode.endFrom code.body 0 ∧ a.pc < code.body.size ∧ a.pc < offset
  whole : Bytecode.endFrom code.body 0 = code.body.size →
    (∀ byte, a.step p ≠ .finished (.error (.invalidOpcode byte))) ∧
    (∀ offset, a.step p ≠ .finished (.error (.truncatedOperand offset))) ∧
    ∀ i, Instruction.decode code.body a.pc = .ok i → code.uses i.opcode = true

theorem Activation.onWalk_of_boundary {p : Program} {code : Code} (hcode : a.code = code)
    (hpc : Bytecode.Boundary code.body a.pc) : a.OnWalk p code := by
  subst hcode
  have hstop (fault : Instruction.Fault) (h : a.step p = .finished (.error (faultError fault))) :
      a.pc = Bytecode.endFrom a.code.body 0 ∧ a.pc < a.code.body.size ∧
        Instruction.decode a.code.body a.pc = .error fault := by
    obtain ⟨hlt, hf⟩ := decode_of_step_error h
    rcases hpc with ⟨i, hi⟩ | hpc
    · cases hf.symm.trans (Bytecode.decode_of_mem hi)
    · exact ⟨hpc, hlt, hf⟩
  have hmet {i : Instruction} (hi : Instruction.decode a.code.body a.pc = .ok i) :
      (a.pc, i) ∈ Bytecode.walk a.code.body := (hpc.decoded hi).1
  refine ⟨rfl, ?_, fun byte h => ?_, fun offset h => ?_, fun hend => ⟨fun byte h => ?_, fun offset h => ?_, ?_⟩⟩
  · exact hpc.imp_left fun ⟨i, hi⟩ => ⟨i, Bytecode.decode_of_mem hi, Bytecode.mem_outline hi⟩
  · obtain ⟨hpc, hlt, hf⟩ := hstop (.invalidOpcode byte) h
    rcases Instruction.decode_error hlt hf with ⟨_, hb, hbyte⟩ | ⟨_, ho, -⟩
    · cases hb
      exact ⟨hpc, hlt, hbyte⟩
    · cases ho
  · obtain ⟨hpc, hlt, hf⟩ := hstop (.truncatedOperand offset) h
    rcases Instruction.decode_error hlt hf with ⟨_, hb, -⟩ | ⟨_, ho, hlater⟩
    · cases hb
    · cases ho
      exact ⟨hpc, hlt, hlater⟩
  · obtain ⟨hpc, hlt, -⟩ := hstop (.invalidOpcode byte) h
    omega
  · obtain ⟨hpc, hlt, -⟩ := hstop (.truncatedOperand offset) h
    omega
  · intro i hi
    exact List.any_eq_true.mpr ⟨_, hmet hi, decide_eq_true rfl⟩

/-- A body all of whose jumps land on the walk stays on the walk, whatever it calls and whoever is asked meanwhile. -/
theorem body_stays_on_walk {code : Code} {locals : Array Value} {depth : Nat}
    (hland : ∀ w' a b i, Reaches β ⟨w, _, .nil, .run e ⟨code, 0, [], locals, depth⟩⟩ ⟨w', _, .nil, .run e a⟩ →
      Instruction.decode a.code.body a.pc = .ok i → i.Jumps → a.step (w'.evaluator e).program = .running b →
      b.pc = a.pc + i.size ∨ Bytecode.Boundary a.code.body b.pc)
    (hr : Reaches β ⟨w, _, .nil, .run e ⟨code, 0, [], locals, depth⟩⟩ ⟨w', _, .nil, .run e' a⟩) :
    e' = e ∧ a.OnWalk (w'.evaluator e).program code := by
  have hstart : Bytecode.Boundary code.body 0 := Bytecode.boundaryFrom_self ..
  have hkept : ∀ w' a b, Reaches β ⟨w, _, .nil, .run e ⟨code, 0, [], locals, depth⟩⟩ ⟨w', _, .nil, .run e a⟩ →
      a.code = code ∧ Bytecode.Boundary code.body a.pc → a.Follows (w'.evaluator e).program b →
      b.code = code ∧ Bytecode.Boundary code.body b.pc := by
    rintro w' a b hreach ⟨rfl, hpc⟩ hf
    refine Activation.Orderly.boundary (.step .refl hf fun i hi hj => ?_) hpc
    cases hf with
    | running h => exact hland w' a b i hreach hi hj h
    | returned v h =>
      obtain ⟨i', hi', hcall, -⟩ := Activation.step_progress h nofun
      obtain rfl := Except.ok.inj (hi.symm.trans hi')
      exact absurd hj (Instruction.not_jumps_of_call hcall)
  obtain ⟨rfl, hcode, hpc⟩ := body_induct hkept (.running ⟨rfl, hstart⟩) hr
  exact ⟨rfl, Activation.onWalk_of_boundary hcode hpc⟩

open Evaluation

namespace DistantCall

def distant : Code := .make ⟨1⟩ ⟨"distant", 0, 1, #[0x30, 1, 0, 0, 0, 0x00, 0x32, 1, 0, 0, 0, 0, 0x33]⟩

def program : Program := ⟨#[distant, .make ⟨2⟩ ⟨"inner", 0, 0, #[0x03, 0x33]⟩]⟩

def frame : Frame := ⟨distant, #[.null], 0, by decide, by decide⟩

def start : State host .evaluation := ⟨world program 2, _, .nil, .run evaluator (.start frame)⟩

theorem body_stays_on_walk_distant : ∃ w a, Reaches behaviour start ⟨w, _, .nil, .run evaluator a⟩ ∧
    a.pc = 12 ∧ a.OnWalk program frame.code := by
  have hrun : ∃ w, start.run behaviour 9 = .finished w (.ok (.ok (.bool true))) := ⟨_, rfl⟩
  obtain ⟨w, hrun⟩ := hrun
  have hland : ∀ w' a b i, Reaches behaviour start ⟨w', _, .nil, .run evaluator a⟩ →
      Instruction.decode a.code.body a.pc = .ok i → i.Jumps → a.step (w'.evaluator evaluator).program = .running b →
      b.pc = a.pc + i.size ∨ Bytecode.Boundary a.code.body b.pc := by
    intro w' a b i hreach hi hj hstep
    have hu := visited_of_reaches hrun hreach
    change _ ∈ [_, _, _, _, _, _, _, _] at hu
    simp only [List.mem_cons, List.not_mem_nil, or_false] at hu
    rcases hu with hu | hu | hu | hu | hu | hu | hu | hu <;> cases hu
    · obtain rfl : b = { Activation.start frame with pc := 6 } := (Progress.running.inj hstep).symm
      have hwalk : (6, .call 1 0) ∈ Bytecode.walk frame.code.body := by decide +kernel
      exact .inr (.inl ⟨_, hwalk⟩)
    · obtain rfl : i = .call 1 0 := (Except.ok.inj hi).symm
      exact hj.elim
    · obtain rfl : i = .ret := (Except.ok.inj hi).symm
      exact hj.elim
  have hr : Reaches behaviour start ⟨_, _, .nil, .run evaluator _⟩ := ⟨6, rfl⟩
  exact ⟨_, _, hr, rfl, (body_stays_on_walk hland hr).2⟩

end DistantCall

end Interception
