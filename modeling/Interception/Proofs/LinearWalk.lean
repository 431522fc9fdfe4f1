import Interception.Proofs.EagerPipeline

/-!
What the linear walk over a body says about its runs. A run that never jumps past the offsets of the walk executes
only instructions that the walk has met, so an opcode that the walk has not met is not executed. A jump elsewhere
reaches bytes that the walk has not seen, or has seen as operands.
-/

namespace Interception

namespace Bytecode

variable {code : Array UInt8} {pos o : Nat} {i : Instruction}

def endFrom (code : Array UInt8) (pos : Nat) : Nat :=
  (walkFrom code pos).getLast?.elim pos fun (o, i) => o + i.size

theorem endFrom_ok (h : Instruction.decode code pos = .ok i) : endFrom code pos = endFrom code (pos + i.size) := by
  rw [endFrom, walkFrom_ok h, endFrom, List.getLast?_cons]
  cases (walkFrom code (pos + i.size)).getLast? <;> rfl

theorem endFrom_error {fault : Instruction.Fault} (h : Instruction.decode code pos = .error fault) :
    endFrom code pos = pos := by
  rw [endFrom, walkFrom_error h]
  rfl

def BoundaryFrom (code : Array UInt8) (pos o : Nat) : Prop :=
  (∃ i, (o, i) ∈ walkFrom code pos) ∨ o = endFrom code pos

def Boundary (code : Array UInt8) (o : Nat) : Prop := BoundaryFrom code 0 o

theorem boundaryFrom_self (code : Array UInt8) (pos : Nat) : BoundaryFrom code pos pos := by
  cases h : Instruction.decode code pos with
  | ok i =>
    left
    rw [walkFrom_ok h]
    exact ⟨i, List.mem_cons_self⟩
  | error fault => exact .inr (endFrom_error h).symm

theorem BoundaryFrom.of_next (h : Instruction.decode code pos = .ok i) (ho : BoundaryFrom code (pos + i.size) o) :
    BoundaryFrom code pos o := by
  rcases ho with ⟨j, hj⟩ | ho
  · left
    rw [walkFrom_ok h]
    exact ⟨j, List.mem_cons_of_mem _ hj⟩
  · exact .inr (ho.trans (endFrom_ok h).symm)

theorem BoundaryFrom.decoded (ho : BoundaryFrom code pos o) (h : Instruction.decode code o = .ok i) :
    (o, i) ∈ walkFrom code pos ∧ BoundaryFrom code pos (o + i.size) := by
  induction pos using walkFrom.induct code with
  | case1 pos j hj ih =>
    by_cases hpos : o = pos
    · subst hpos
      obtain rfl := Except.ok.inj (hj.symm.trans h)
      refine ⟨?_, .of_next hj (boundaryFrom_self ..)⟩
      rw [walkFrom_ok hj]
      exact List.mem_cons_self
    · have hrest : BoundaryFrom code (pos + j.size) o := by
        rcases ho with ⟨k, hk⟩ | ho
        · rw [walkFrom_ok hj] at hk
          rcases List.mem_cons.mp hk with hk | hk
          · exact absurd (congrArg Prod.fst hk) hpos
          · exact .inl ⟨k, hk⟩
        · exact .inr (ho.trans (endFrom_ok hj))
      obtain ⟨hmem, hnext⟩ := ih hrest
      refine ⟨?_, .of_next hj hnext⟩
      rw [walkFrom_ok hj]
      exact List.mem_cons_of_mem _ hmem
  | case2 pos fault hf =>
    -- the walk has stopped, and nothing is decoded where it stops
    rcases ho with ⟨k, hk⟩ | ho
    · rw [walkFrom_error hf] at hk
      exact absurd hk List.not_mem_nil
    · rw [endFrom_error hf] at ho
      subst ho
      cases hf.symm.trans h

theorem findOpcode?_eq_none {ops : List Opcode} (h : findOpcode? code ops = none) (hi : (o, i) ∈ walk code) :
    i.opcode ∉ ops := by
  rw [findOpcode?, Option.map_eq_none_iff, List.find?_eq_none] at h
  simpa using h _ hi

end Bytecode

theorem Code.not_refused {c : Code} {refused : List Opcode} {o : Nat} {i : Instruction}
    (h : c.refusal? refused = none) (hi : (o, i) ∈ Bytecode.walk c.body) : i.opcode ∉ refused := by
  rw [refusal?] at h
  split at h
  · cases h
  · exact Bytecode.findOpcode?_eq_none (Option.map_eq_none_iff.mp h) hi

def Instruction.Jumps : Instruction → Prop
  | jump _ | jumpIfFalse _ => True
  | _ => False

theorem Instruction.jumps_of_distance? {i : Instruction} {rel : Int32} (h : i.distance? = some rel) : i.Jumps := by
  cases i with
  | jump rel | jumpIfFalse rel => trivial
  | _ => cases h

def Progress.Of (i : Instruction) (next : Nat) : Progress → Prop
  | .running b => ¬ i.Jumps → b.pc = next
  | .calling b _ => i.opcode = .call ∧ b.pc = next
  | .stranded | .finished _ => True

namespace Activation

variable {p : Program} {a b c : Activation} {next : Nat} {g : Progress} {i : Instruction}

theorem execute_progress (h : a.execute p i next = .ok g) : g.Of i next := by
  cases executes h with
  | proceeds => exact fun _ => rfl
  | jumps _ hi => exact fun hj => absurd (Instruction.jumps_of_distance? hi) hj
  | calls => exact ⟨rfl, rfl⟩
  | strands | returns => trivial

inductive Follows (p : Program) (a : Activation) : Activation → Prop
  | running {b : Activation} (h : a.step p = .running b) : Follows p a b
  | returned {b : Activation} {callee : Frame} (v : Value) (h : a.step p = .calling b callee) :
    Follows p a (b.push v)

/-- A run of the body in which every jump that is taken lands on a boundary of the walk. -/
inductive Orderly (p : Program) (a : Activation) : Activation → Prop
  | refl : Orderly p a a
  | step {b c : Activation} (h : Orderly p a b) (hf : b.Follows p c)
    (hland : ∀ i, Instruction.decode b.code.body b.pc = .ok i → i.Jumps →
      c.pc = b.pc + i.size ∨ Bytecode.Boundary b.code.body c.pc) : Orderly p a c

theorem step_progress (h : a.step p = g) (hne : ∀ e, g ≠ .finished (.error e)) :
    ∃ i, Instruction.decode a.code.body a.pc = .ok i ∧ g.Of i (a.pc + i.size) := by
  obtain ⟨i, hi, hg⟩ := execute_of_step h hne
  exact ⟨i, hi, execute_progress hg⟩

theorem Follows.decoded (h : a.Follows p b) :
    b.code = a.code ∧ ∃ i, Instruction.decode a.code.body a.pc = .ok i ∧ (¬ i.Jumps → b.pc = a.pc + i.size) := by
  have hc := a.step_continues p
  cases h with
  | running h =>
    rw [h] at hc
    obtain ⟨i, hi, hof⟩ := step_progress h nofun
    exact ⟨congrArg Prod.fst hc, i, hi, hof⟩
  | returned v h =>
    rw [h] at hc
    obtain ⟨i, hi, hof⟩ := step_progress h nofun
    exact ⟨congrArg Prod.fst hc.1, i, hi, fun _ => hof.2⟩

theorem Orderly.boundary (h : a.Orderly p b) (ha : Bytecode.Boundary a.code.body a.pc) :
    b.code = a.code ∧ Bytecode.Boundary a.code.body b.pc := by
  induction h with
  | refl => exact ⟨rfl, ha⟩
  | @step b c _ hf hland ih =>
    obtain ⟨hcode, hb⟩ := ih
    obtain ⟨hsame, i, hi, hfalls⟩ := hf.decoded
    rw [hcode] at hi hland
    have hnext := (hb.decoded hi).2
    refine ⟨hsame.trans hcode, ?_⟩
    by_cases hj : i.Jumps
    · rcases hland i hi hj with hc | hc
      · rw [hc]
        exact hnext
      · exact hc
    · rw [hfalls hj]
      exact hnext

end Activation

open State

variable {H : Host} {β : Behaviour H} {w w' : World H} {c : ConverterId} {b : CompilerId} {f : Frame}
  {r : Replacement} {refused : List Opcode} {p : Program} {a : Activation}

theorem refusal?_eq_none_of_converted (hc : w.converter c = .eager refused)
    (hf : Finishes β (.ofRequest w (.convert c b f)) w' (.ok (.converted r))) : f.code.refusal? refused = none := by
  cases hr : f.code.refusal? refused with
  | none => rfl
  | some reason =>
    obtain ⟨-, hne⟩ := hf.unique (convert_refused hc hr)
    cases hne

/-- What the eager converter has accepted executes no refused instruction, so long as its jumps stay on the walk. -/
theorem orderly_run_avoids_refused {locals : Array Value} {depth : Nat} (hc : w.converter c = .eager refused)
    (hf : Finishes β (.ofRequest w (.convert c b f)) w' (.ok (.converted r)))
    (hr : Activation.Orderly p ⟨f.code, 0, [], locals, depth⟩ a) :
    (∀ i, Instruction.decode a.code.body a.pc = .ok i → i.opcode ∉ refused) ∧
      (.call ∈ refused → ∀ caller callee, a.step p ≠ .calling caller callee) := by
  obtain ⟨hcode, hpc⟩ := hr.boundary (Bytecode.boundaryFrom_self ..)
  have hrefused : ∀ i, Instruction.decode a.code.body a.pc = .ok i → i.opcode ∉ refused := by
    intro i hi
    rw [hcode] at hi
    exact Code.not_refused (refusal?_eq_none_of_converted hc hf) (hpc.decoded hi).1
  refine ⟨hrefused, fun hcall caller callee hstep => ?_⟩
  obtain ⟨i, hi, hop, -⟩ := Activation.step_progress hstep nofun
  exact hrefused i hi (hop ▸ hcall)

section

open Activation Evaluation

namespace SkippedCall

def program : Program := .ofSources [⟨"skip", 0, 0, #[0x30, 2, 0, 0, 0, 0x03, 0x33, 0x02, 0x33]⟩]

def world : World host :=
  { Evaluation.world program 1 with
    converters := ⟨#[.eager [.call, .add]]⟩
    compilers := ⟨#[.eager]⟩ }

def frame : Frame := ⟨program.functions[0], #[], 0, Nat.le_refl 0, Nat.zero_le _⟩

theorem orderly_run_avoids_refused_skipping :
    ∃ a : Activation, Orderly program (.start frame) a ∧ a.pc = 7 ∧
      (∀ i, Instruction.decode a.code.body a.pc = .ok i → i.opcode ∉ [.call, .add]) ∧
      ∀ caller callee, a.step program ≠ .calling caller callee := by
  have hrefusal : frame.code.refusal? [.call, .add] = none := by decide +kernel
  have hconverted := convert_compiled (β := behaviour) (w := world) (c := ⟨0⟩) (b := ⟨0⟩) rfl hrefusal
    (compile_eager rfl frame.code)
  have hwalk : (7, .constNull) ∈ Bytecode.walk frame.code.body := by decide +kernel
  have horderly : Orderly program (.start frame) { Activation.start frame with pc := 7 } :=
    .step .refl (.running rfl) fun _ _ _ => .inr (.inl ⟨_, hwalk⟩)
  obtain ⟨hrefused, hcall⟩ := orderly_run_avoids_refused rfl hconverted horderly
  exact ⟨_, horderly, rfl, hrefused, hcall (by decide)⟩

end SkippedCall

namespace HiddenCall

def program : Program :=
  .ofSources [⟨"hidden", 0, 0, #[0x30, 1, 0, 0, 0, 0xFF, 0x32, 1, 0, 0, 0, 0, 0x33]⟩,
    ⟨"inner", 0, 0, #[0x03, 0x33]⟩]

def world : World host :=
  { Evaluation.world program 2 with
    converters := ⟨#[.eager [.call]]⟩
    compilers := ⟨#[.eager]⟩ }

def frame : Frame := ⟨program.functions[0], #[], 0, Nat.le_refl 0, Nat.zero_le _⟩

/-- The walk stops before the call, so the converter accepts the body; running it performs the call. -/
theorem hidden_call_executed :
    (∃ w', Finishes behaviour (.ofRequest world (.convert ⟨0⟩ ⟨0⟩ frame)) w'
        (.ok (.converted ⟨frame.code, .argTags []⟩))) ∧
      ∃ w a, Reaches behaviour (.ofRequest world (.evaluateFrame evaluator frame)) ⟨w, _, .nil, .run evaluator a⟩ ∧
        a.code = frame.code ∧ Instruction.decode a.code.body a.pc = .ok (.call 1 0) ∧
        ∃ caller callee, a.step program = .calling caller callee := by
  have hrefusal : frame.code.refusal? [.call] = none := by decide +kernel
  refine ⟨⟨_, convert_compiled rfl hrefusal (compile_eager rfl frame.code)⟩, ?_⟩
  exact ⟨_, _, ⟨2, rfl⟩, rfl, rfl, _, _, rfl⟩

end HiddenCall

end

end Interception
