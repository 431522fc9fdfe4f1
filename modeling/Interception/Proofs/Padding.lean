import Interception.Proofs.Actions
import Interception.Proofs.Computes
import Interception.Proofs.Encoding

namespace Interception

open Instruction

def Code.source (c : Code) : Code.Source := ⟨c.name, c.params, c.locals, c.body⟩

def Program.sources (p : Program) : Array Code.Source := p.functions.map Code.source

def Code.Source.pad (k : Nat) (more : Array UInt8) (s : Source) : Source :=
  { s with body := Array.replicate k Opcode.nop.byte ++ s.body ++ more }

namespace Code

variable {c c' : Code} {k pos : Nat} {more : Array UInt8} {i : Instruction}

def Padded (k : Nat) (more : Array UInt8) (c c' : Code) : Prop := c'.source = c.source.pad k more

theorem padded_refl (c : Code) : c.Padded 0 #[] c := by simp [Padded, Source.pad, source]

theorem Padded.params (h : c.Padded k more c') : c'.params = c.params := congrArg Source.params h

theorem Padded.locals (h : c.Padded k more c') : c'.locals = c.locals := congrArg Source.locals h

theorem Padded.body (h : c.Padded k more c') : c'.body = Array.replicate k Opcode.nop.byte ++ c.body ++ more :=
  congrArg Source.body h

theorem Padded.size_body (h : c.Padded k more c') : c'.body.size = k + c.body.size + more.size := by
  rw [h.body, Array.size_append, Array.size_append, Array.size_replicate]

theorem Padded.decode (h : c.Padded k more c') (hi : decode c.body pos = .ok i) :
    decode c'.body (k + pos) = .ok i := by
  rw [h.body]
  have hat := Bytes.At.behind (decode_eq_ok_iff.mp hi) (Array.replicate k Opcode.nop.byte)
  rw [Array.size_replicate] at hat
  exact decode_eq_ok_iff.mpr (hat.extend more)

theorem Padded.decode_nop (h : c.Padded k more c') (hpos : pos < k) : Instruction.decode c'.body pos = .ok .nop := by
  have hbyte : c'.body[pos]? = some Opcode.nop.byte := by
    rw [h.body, Array.append_assoc, Array.getElem?_append_left (by rwa [Array.size_replicate]),
      Array.getElem?_replicate, if_pos hpos]
  exact decode_eq_ok_iff.mpr ⟨hbyte, trivial⟩

end Code

def Program.Padded (p p' : Program) : Prop :=
  ∀ j c, p.function? j = some c → ∃ c' k more, p'.function? j = some c' ∧ c.Padded k more c'

structure Frame.Padded (f f' : Frame) : Prop where
  code : ∃ k more, f.code.Padded k more f'.code
  locals : f'.locals = f.locals
  depth : f'.depth = f.depth

theorem Frame.make?_padded {c c' : Code} {k : Nat} {more : Array UInt8} (h : c.Padded k more c') (args : Array Value)
    (depth : Nat) : Option.Rel Frame.Padded (make? c args depth) (make? c' args depth) := by
  rw [make?, make?]
  by_cases hroom : max args.size c.locals ≤ maxLocals
  · have hroom' : max args.size c'.locals ≤ maxLocals := by rwa [h.locals]
    rw [dif_pos hroom, dif_pos hroom']
    exact .some ⟨⟨k, more, h⟩, by simp only [h.locals], rfl⟩
  · have hroom' : ¬ max args.size c'.locals ≤ maxLocals := by rwa [h.locals]
    rw [dif_neg hroom, dif_neg hroom']
    exact .none

def Activation.paddedTo (a : Activation) (code : Code) (k : Nat) : Activation := { a with code, pc := k + a.pc }

inductive Activation.Padded : Activation → Activation → Prop
  | paddedTo {a : Activation} {code : Code} {k : Nat} {more : Array UInt8} (h : a.code.Padded k more code) :
    Padded a (a.paddedTo code k)

theorem Activation.Padded.push {a b : Activation} (h : a.Padded b) (v : Value) : (a.push v).Padded (b.push v) := by
  cases h with
  | paddedTo h => exact .paddedTo (a := a.push v) h

inductive Progress.Padded : Progress → Progress → Prop
  | running {a b : Activation} (h : a.Padded b) : Padded (.running a) (.running b)
  | calling {caller caller' : Activation} {callee callee' : Frame} (h : caller.Padded caller')
    (hcallee : callee.Padded callee') : Padded (.calling caller callee) (.calling caller' callee')
  | stranded : Padded .stranded .stranded
  | finished (r : Except EvalError Value) : Padded (.finished r) (.finished r)

namespace Activation

variable {a : Activation} {code : Code} {k next target : Nat} {more : Array UInt8} {p p' : Program} {g : Progress}

theorem jumpTarget_paddedTo {rel : Int32} (hc : a.code.Padded k more code) (h : a.jumpTarget next rel = .ok target) :
    (a.paddedTo code k).jumpTarget (k + next) rel = .ok (k + target) := by
  obtain ⟨htarget, hle⟩ := jumpTarget_eq_ok_iff.mp h
  have hsize := hc.size_body
  apply jumpTarget_eq_ok_iff.mpr
  constructor
  · omega
  · change k + target ≤ code.body.size
    omega

theorem carryOut_paddedTo {action : Instruction.Action} (hc : a.code.Padded k more code) (hp : p.Padded p')
    (h : a.carryOut p next action = .ok g) :
    ∃ g', (a.paddedTo code k).carryOut p' (k + next) action = .ok g' ∧ g.Padded g' := by
  cases action with
  | proceed operands locals =>
    cases h
    exact ⟨_, rfl, .running (.paddedTo (a := { a with pc := next, operands, locals }) hc)⟩
  | jump rel operands =>
    simp only [carryOut] at h ⊢
    cases htarget : a.jumpTarget next rel with
    | error cause =>
      rw [htarget] at h
      cases h
    | ok target =>
      rw [htarget] at h
      cases h
      rw [jumpTarget_paddedTo hc htarget]
      exact ⟨_, rfl, .running (.paddedTo (a := { a with pc := target, operands }) hc)⟩
  | call function args operands =>
    simp only [carryOut] at h ⊢
    cases hcode : p.function? function with
    | none =>
      rw [hcode] at h
      cases h
    | some c =>
      obtain ⟨c', k', more', hcode', hpadded⟩ := hp function c hcode
      simp only [hcode] at h
      simp only [hcode']
      by_cases hargs : args.length = c.params
      · rw [if_pos hargs] at h
        rw [if_pos (hargs.trans hpadded.params.symm)]
        have hmake := Frame.make?_padded hpadded args.toArray (a.depth + 1)
        simp only [paddedTo]
        generalize Frame.make? c args.toArray (a.depth + 1) = f at h hmake
        generalize Frame.make? c' args.toArray (a.depth + 1) = f' at hmake
        cases hmake with
        | none =>
          cases h
          exact ⟨_, rfl, .stranded⟩
        | some hcallee =>
          cases h
          exact ⟨_, rfl, .calling (.paddedTo (a := { a with pc := next, operands }) hc) hcallee⟩
      · rw [if_neg hargs] at h
        cases h
  | ret v =>
    cases h
    exact ⟨_, rfl, .finished _⟩

theorem step_paddedTo (hc : a.code.Padded k more code) (hp : p.Padded p')
    (hg : ∀ cause, a.step p ≠ .finished (.error cause)) : (a.step p).Padded ((a.paddedTo code k).step p') := by
  obtain ⟨i, hi, hexecute⟩ := execute_of_step rfl hg
  rw [execute_eq] at hexecute
  cases haction : i.act a.locals a.operands with
  | error fault =>
    rw [haction] at hexecute
    cases hexecute
  | ok action =>
    rw [haction] at hexecute
    obtain ⟨g, hg, hpadded⟩ := carryOut_paddedTo hc hp hexecute
    have hdecode : Instruction.decode (a.paddedTo code k).code.body (a.paddedTo code k).pc = .ok i := hc.decode hi
    have haction' : i.act (a.paddedTo code k).locals (a.paddedTo code k).operands = .ok action := haction
    have hadvance : (a.paddedTo code k).advance p' = .ok g := by
      rw [advance_of_decode hdecode, execute_eq, haction', paddedTo, Nat.add_assoc]
      exact hg
    have hstep : (a.paddedTo code k).step p' = g := by rw [step, hadvance]
    rwa [hstep]

theorem step_nop (hi : Instruction.decode a.code.body a.pc = .ok .nop) :
    a.step p = .running { a with pc := a.pc + 1 } := by
  rw [step, advance_of_decode hi]
  rfl

end Activation

variable {p p' : Program} {maxDepth n : Nat} {q : Ending}

inductive Job.Padded : Job → Job → Prop
  | call (function : UInt32) (args : Array Value) : Padded (call function args) (call function args)
  | frame {f f' : Frame} (h : f.Padded f') : Padded (frame f) (frame f')
  | body {a b : Activation} (h : a.Padded b) : Padded (body a) (body b)

inductive Move.Padded : Move → Move → Prop
  | raises {cause : EvalError} {m : Move} : Padded (.ends (.result (.error cause))) m
  | strands {m : Move} : Padded (.ends .noRoom) m
  | returns (v : Value) : Padded (.ends (.result (.ok v))) (.ends (.result (.ok v)))
  | becomes {job job' : Job} (h : job.Padded job') : Padded (.becomes job) (.becomes job')
  | enters {f f' : Frame} (h : f.Padded f') : Padded (.enters f) (.enters f')
  | calls {caller caller' : Activation} {callee callee' : Frame} (h : caller.Padded caller')
    (hcallee : callee.Padded callee') : Padded (.calls caller callee) (.calls caller' callee')

theorem Computes.of_nops {a : Activation} {c : Code} {k : Nat} {more : Array UInt8} (hc : c.Padded k more a.code)
    (hpc : a.pc ≤ k) (h : Computes p maxDepth (.body { a with pc := k }) n q) : Computes p maxDepth (.body a) n q := by
  induction hd : k - a.pc generalizing a with
  | zero =>
    obtain rfl : k = a.pc := by omega
    exact h
  | succ d ih =>
    have hstep : a.step p = .running { a with pc := a.pc + 1 } := Activation.step_nop (hc.decode_nop (by omega))
    have hpc' : a.pc + 1 ≤ k := by omega
    have hd' : k - (a.pc + 1) = d := by omega
    have hrest := ih (a := { a with pc := a.pc + 1 }) hc hpc' h hd'
    exact .becomes (by rw [Job.move, hstep]) hrest

theorem Job.call_padded (hp : p.Padded p') (function : UInt32) (args : Array Value) :
    ((call function args).move p maxDepth).Padded ((call function args).move p' maxDepth) := by
  simp only [move]
  cases hcode : p.function? function with
  | none => exact .raises
  | some c =>
    obtain ⟨c', k, more, hcode', hpadded⟩ := hp function c hcode
    simp only [hcode', hpadded.params]
    by_cases hargs : args.size = c.params
    · simp only [if_pos hargs]
      have hmake := Frame.make?_padded hpadded args 0
      generalize Frame.make? c args 0 = f at hmake
      generalize Frame.make? c' args 0 = f' at hmake
      cases hmake with
      | none => exact .strands
      | some hf => exact .becomes (.frame hf)
    · rw [if_neg hargs]
      exact .raises

theorem Job.Padded.move {job job' : Job} (h : job.Padded job') (hp : p.Padded p') :
    (job.move p maxDepth).Padded (job'.move p' maxDepth) := by
  cases h with
  | call function args => exact call_padded hp function args
  | @frame f f' h =>
    simp only [Job.move, h.depth]
    split
    · exact .raises
    · exact .enters h
  | @body a b h =>
    by_cases hfails : ∃ cause, a.step p = .finished (.error cause)
    · obtain ⟨cause, hfails⟩ := hfails
      simp only [Job.move, hfails]
      exact .raises
    · have hg : ∀ cause, a.step p ≠ .finished (.error cause) := fun cause hc => hfails ⟨cause, hc⟩
      have hstep : (a.step p).Padded (b.step p') := by
        cases h with
        | paddedTo hc => exact Activation.step_paddedTo hc hp hg
      simp only [Job.move]
      generalize a.step p = g at hstep hg
      generalize b.step p' = g' at hstep
      cases hstep with
      | running h => exact .becomes (.body h)
      | calling h hcallee => exact .calls h hcallee
      | stranded => exact .strands
      | finished r =>
        cases r with
        | error cause => exact absurd rfl (hg cause)
        | ok v => exact .returns v

theorem Job.Padded.move_eq {job job' : Job} {m : Move} (h : job.Padded job') (hp : p.Padded p')
    (hm : job.move p maxDepth = m) : ∃ m', job'.move p' maxDepth = m' ∧ m.Padded m' :=
  ⟨_, rfl, hm ▸ h.move hp⟩

theorem Frame.Padded.start_eq {f f' : Frame} (h : f.Padded f') (k : Nat) :
    (Activation.start f).paddedTo f'.code k = { Activation.start f' with pc := k } := by
  simp only [Activation.paddedTo, Activation.start, h.locals, h.depth, Nat.add_zero]

theorem Computes.padded {job job' : Job} {v : Value} (hp : p.Padded p')
    (h : Computes p maxDepth job n (.result (.ok v))) (hj : job.Padded job') :
    Computes p' maxDepth job' n (.result (.ok v)) := by
  generalize hq : Ending.result (.ok v) = q at h
  induction h generalizing job' v with
  | ends hm =>
    subst hq
    obtain ⟨m, hm', hmove⟩ := hj.move_eq hp hm
    cases hmove with
    | returns => exact .ends hm'
  | becomes hm _ ih =>
    obtain ⟨m, hm', hmove⟩ := hj.move_eq hp hm
    cases hmove with
    | becomes hjob => exact .becomes hm' (ih hjob hq)
  | enters hm _ ih =>
    obtain ⟨m, hm', hmove⟩ := hj.move_eq hp hm
    cases hmove with
    | enters hf =>
      obtain ⟨k, more, hc⟩ := hf.code
      have hbody := ih (.body (.paddedTo hc)) hq
      rw [hf.start_eq] at hbody
      exact .enters hm' (of_nops hc (Nat.zero_le k) hbody)
  | returns hm _ _ ihc ihb =>
    obtain ⟨m, hm', hmove⟩ := hj.move_eq hp hm
    cases hmove with
    | calls hcaller hcallee => exact .returns hm' (ihc (.frame hcallee) rfl) (ihb (.body (hcaller.push _)) hq)
  | aborts _ _ hne => exact absurd hq.symm (hne v)

theorem Program.Padded.of_modify {i k : Nat} {more : Array UInt8}
    (hp : p'.sources = p.sources.modify i (·.pad k more)) : p.Padded p' := by
  intro j c hc
  have hsource : p'.sources[j.toNat]? = (p.sources.modify i (·.pad k more))[j.toNat]? := by rw [hp]
  have hfunction : p.functions[j.toNat]? = some c := hc
  rw [sources, sources, Array.getElem?_modify, Array.getElem?_map, Array.getElem?_map, hfunction] at hsource
  by_cases hj : i = j.toNat
  · rw [if_pos hj] at hsource
    obtain ⟨c', hc', hpadded⟩ := Option.map_eq_some_iff.mp hsource
    exact ⟨c', k, more, hc', hpadded⟩
  · rw [if_neg hj] at hsource
    obtain ⟨c', hc', hsame⟩ := Option.map_eq_some_iff.mp hsource
    exact ⟨c', 0, #[], hc', hsame.trans c.padded_refl⟩

open State

variable {H : Host} {β : Behaviour H} {w w' w₁ : World H} {e e' : EvaluatorId} {i k : Nat} {more : Array UInt8}
  {function : UInt32} {args : Array Value} {v : Value}

/-- With interception off, nothing that an evaluation returns depends on where the body of a function starts in the
code of that function, nor on what stands behind it. -/
theorem padded_function_returns (hp : p'.sources = p.sources.modify i (·.pad k more))
    (hw : w.Equipped e p maxDepth .null) (hw' : w'.Equipped e' p' maxDepth .null)
    (h : Finishes β (ofRequest w (.evaluate e function args)) w₁ (.ok (.ok v))) :
    ∃ n, w₁ = w.countFrames e n ∧
      Finishes β (ofRequest w' (.evaluate e' function args)) (w'.countFrames e' n) (.ok (.ok v)) := by
  change Finishes β ((Job.call function args).start w e) w₁ _ at h
  obtain ⟨n, q, hq, hv, rfl⟩ := (finishes_iff_computes hw).mp h
  obtain rfl := Ending.lift_eq_ok_iff.mp hv.symm
  have hpadded := hq.padded (.of_modify hp) (.call function args)
  have hfinishes : Finishes β ((Job.call function args).start w' e') (w'.countFrames e' n) (.ok (.ok v)) :=
    (finishes_iff_computes hw').mpr ⟨n, _, hpadded, rfl, rfl⟩
  exact ⟨n, rfl, hfinishes⟩

open Evaluation

namespace PaddedLoop

def program : Program :=
  .ofSources [⟨"loop", 0, 1, #[0x10, 0, 0, 0x31, 2, 0, 0, 0, 0x03, 0x33, 0x03, 0x11, 0, 0,
    0x30, 0xed, 0xff, 0xff, 0xff]⟩]

def padded : Program :=
  .ofSources [⟨"loop", 0, 1, #[0, 0, 0x10, 0, 0, 0x31, 2, 0, 0, 0, 0x03, 0x33, 0x03, 0x11, 0, 0,
    0x30, 0xed, 0xff, 0xff, 0xff, 0xff]⟩]

theorem padded_function_returns_loop :
    Finishes behaviour (ofRequest (world padded 1) (.evaluate evaluator 0 #[]))
      ((world padded 1).countFrames evaluator 1) (.ok (.ok (.bool true))) := by
  have hp : padded.sources = program.sources.modify 0 (·.pad 2 #[0xff]) := by decide +kernel
  have hrun : ∃ w, (ofRequest (world program 1) (.evaluate evaluator 0 #[])).run behaviour 20 =
      .finished w (.ok (.ok (.bool true))) ∧ (w.evaluator evaluator).usage.frames = 1 := ⟨_, rfl, rfl⟩
  obtain ⟨w, hrun, hframes⟩ := hrun
  obtain ⟨n, rfl, hpadded⟩ :=
    padded_function_returns hp (world_equipped program 1) (world_equipped padded 1) ⟨20, hrun⟩
  have hn : 0 + n = 1 := (World.frames_countFrames (world program 1) evaluator n).symm.trans hframes
  obtain rfl : n = 1 := by omega
  exact hpadded

end PaddedLoop

end Interception
