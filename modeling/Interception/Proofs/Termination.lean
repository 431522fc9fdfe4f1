import Interception.Proofs.CallTrees
import Interception.Proofs.Fetches

namespace Interception

open State

def Code.Forward (c : Code) : Prop :=
  ∀ o i rel, Instruction.decode c.body o = .ok i → i.distance? = some rel → 0 ≤ rel.toInt

theorem Code.forward_iff (c : Code) : c.Forward ↔ ∀ o < c.body.size,
    ((Instruction.decode c.body o).toOption.bind Instruction.distance?).all (fun rel => 0 ≤ rel.toInt) = true := by
  constructor
  · intro h o _
    rw [Option.all_eq_true]
    intro rel hrel
    obtain ⟨i, hi, hd⟩ := Option.bind_eq_some_iff.mp hrel
    cases hdec : Instruction.decode c.body o with
    | ok j =>
      rw [hdec] at hi
      cases hi
      exact decide_eq_true (h o i rel hdec hd)
    | error fault =>
      rw [hdec] at hi
      cases hi
  · intro h o i rel hi hd
    have hbound := Instruction.decode_bound hi
    simp only [Instruction.size] at hbound
    have hall := h o (by omega)
    rw [hi, Except.toOption, Option.bind_some, hd] at hall
    exact of_decide_eq_true hall

instance (c : Code) : Decidable c.Forward := decidable_of_iff _ c.forward_iff.symm

def Program.Forward (p : Program) : Prop := ∀ c ∈ p.functions, c.Forward

instance (p : Program) : Decidable p.Forward := inferInstanceAs (Decidable (∀ c ∈ p.functions, c.Forward))

namespace CallTree

def executed : CallTree → Nat
  | done => 0
  | instruction a rest => (if a.pc < a.code.body.size then 1 else 0) + rest.executed
  | frame _ _ rest => rest.executed

/-- No frame executes more instructions than its code has bytes. -/
def Frugal : CallTree → Prop
  | done => True
  | instruction _ rest => rest.Frugal
  | frame f inner rest => inner.executed ≤ f.code.body.size ∧ inner.Frugal ∧ rest.Frugal

variable {t u : CallTree}

theorem executed_append (t u : CallTree) : (t.append u).executed = t.executed + u.executed := by
  induction t with
  | done => exact (Nat.zero_add _).symm
  | instruction a rest ih => simp only [append, executed, ih, Nat.add_assoc]
  | frame f inner rest _ ih => simp only [append, executed, ih]

theorem Frugal.append (ht : t.Frugal) (hu : u.Frugal) : (t.append u).Frugal := by
  induction t with
  | done => exact hu
  | instruction a rest ih => exact ih ht
  | frame f inner rest _ ih =>
    obtain ⟨hf, hinner, hrest⟩ := ht
    exact ⟨hf, hinner, ih hrest⟩

end CallTree

namespace Activation

variable {p : Program} {a b : Activation} {i : Instruction} {next : Nat}

theorem execute_running (h : a.execute p i next = .ok (.running b)) :
    b.pc = next ∨ ∃ rel, i.distance? = some rel ∧ (b.pc : Int) = next + rel.toInt := by
  cases executes h with
  | proceeds => exact .inl rfl
  | jumps _ hi ht => exact .inr ⟨_, hi, (jumpTarget_eq_ok_iff.mp ht).1.symm⟩

theorem Follows.forward (h : a.Follows p b) (ha : a.code.Forward) :
    b.origin = a.origin ∧ a.pc < b.pc ∧ a.pc < a.code.body.size := by
  have hc := a.step_continues p
  cases h with
  | running h =>
    rw [h] at hc
    obtain ⟨i, hi, hb⟩ := execute_of_step h (fun _ hf => by cases hf)
    have hbound := Instruction.decode_bound hi
    simp only [Instruction.size] at hb hbound
    rcases execute_running hb with hb | ⟨rel, hrel, hb⟩
    · exact ⟨hc, by omega, by omega⟩
    · have hrel := ha _ i rel hi hrel
      exact ⟨hc, by omega, by omega⟩
  | @returned c _ v h =>
    rw [h] at hc
    obtain ⟨i, hi, -, hpc⟩ := step_progress h (fun _ hf => by cases hf)
    have hbound := Instruction.decode_bound hi
    have hpush : (c.push v).pc = c.pc := rfl
    simp only [Instruction.size] at hpc hbound
    exact ⟨hc.1, by omega, by omega⟩

end Activation

variable {p : Program} {maxDepth bound : Nat} {f : Frame} {a : Activation} {job : Job}

structure Job.EndsWithin (p : Program) (maxDepth bound : Nat) (job : Job) (t : CallTree) (q : Ending) : Prop where
  unfolds : Unfolds p maxDepth job t q
  frugal : t.Frugal
  executed : t.executed ≤ bound
  ending : (∃ r, q = .result r) ∨ q = .noRoom ∧ ∃ c ∈ p.functions, maxLocals < c.locals

namespace Job.EndsWithin

variable {b caller : Activation} {callee : Frame} {t u : CallTree} {q : Ending} {v : Value}

theorem stops (hm : (body a).move p maxDepth = .ends q)
    (hq : (∃ r, q = .result r) ∨ q = .noRoom ∧ ∃ c ∈ p.functions, maxLocals < c.locals) :
    (body a).EndsWithin p maxDepth (a.code.body.size - a.pc) (.instruction a .done) q := by
  refine ⟨.ends hm, trivial, ?_, hq⟩
  simp only [CallTree.executed]
  split <;> omega

theorem runs (hm : (body a).move p maxDepth = .becomes (.body b)) (hf : a.Follows p b) (ha : a.code.Forward)
    (hb : (body b).EndsWithin p maxDepth (b.code.body.size - b.pc) t q) :
    (body a).EndsWithin p maxDepth (a.code.body.size - a.pc) (.instruction a t) q := by
  obtain ⟨horigin, hlater, hinside⟩ := hf.forward ha
  have hcode : b.code = a.code := congrArg Prod.fst horigin
  have hexecuted := hb.executed
  rw [hcode] at hexecuted
  refine ⟨.becomes hm hb.unfolds, hb.frugal, ?_, hb.ending⟩
  simp only [CallTree.executed, if_pos hinside]
  omega

theorem resumes (hm : (body a).move p maxDepth = .calls caller callee)
    (hc : (frame callee).EndsWithin p maxDepth 0 t (.result (.ok v))) (hf : a.Follows p (caller.push v))
    (ha : a.code.Forward)
    (hb : (body (caller.push v)).EndsWithin p maxDepth ((caller.push v).code.body.size - (caller.push v).pc) u q) :
    (body a).EndsWithin p maxDepth (a.code.body.size - a.pc) (.instruction a (t.append u)) q := by
  obtain ⟨horigin, hlater, hinside⟩ := hf.forward ha
  have hcode : (caller.push v).code = a.code := congrArg Prod.fst horigin
  have hcallee := hc.executed
  have hexecuted := hb.executed
  rw [hcode] at hexecuted
  refine ⟨.returns hm hc.unfolds hb.unfolds, hc.frugal.append hb.frugal, ?_, hb.ending⟩
  simp only [CallTree.executed, CallTree.executed_append, if_pos hinside]
  omega

theorem aborts (hm : (body a).move p maxDepth = .calls caller callee) (hinside : a.pc < a.code.body.size)
    (hc : (frame callee).EndsWithin p maxDepth 0 t q) (hq : ∀ v, q ≠ .result (.ok v)) :
    (body a).EndsWithin p maxDepth (a.code.body.size - a.pc) (.instruction a t) q := by
  have hcallee := hc.executed
  refine ⟨.aborts hm hc.unfolds hq, hc.frugal, ?_, hc.ending⟩
  simp only [CallTree.executed, if_pos hinside]
  omega

theorem enters (hm : (frame f).move p maxDepth = .enters f)
    (hb : (body (.start f)).EndsWithin p maxDepth f.code.body.size t q) :
    (frame f).EndsWithin p maxDepth 0 (.frame f t .done) q :=
  ⟨.enters hm hb.unfolds, ⟨hb.executed, hb.frugal, trivial⟩, Nat.le_refl 0, hb.ending⟩

end Job.EndsWithin

theorem body_ends (ha : a.code.Forward)
    (hcallees : ∀ f : Frame, f.code ∈ p.functions → f.depth = a.depth + 1 →
      ∃ t q, (Job.frame f).EndsWithin p maxDepth 0 t q) :
    ∃ t q, (Job.body a).EndsWithin p maxDepth (a.code.body.size - a.pc) t q := by
  -- on the bytes that are still ahead
  induction hk : a.code.body.size - a.pc using Nat.strongRecOn generalizing a with
  | ind k ih =>
    subst hk
    have hnext {b : Activation} (hf : a.Follows p b) :
        ∃ t q, (Job.body b).EndsWithin p maxDepth (b.code.body.size - b.pc) t q := by
      obtain ⟨horigin, hlater, hinside⟩ := hf.forward ha
      obtain ⟨hcode, hdepth⟩ := Prod.mk.inj horigin
      exact ih _ (by rw [hcode]; omega) (hcode ▸ ha) (fun f hf hd => hcallees f hf (hdepth ▸ hd)) rfl
    cases hg : a.step p with
    | running b =>
      have hm : (Job.body a).move p maxDepth = .becomes (.body b) := by rw [Job.move, hg]
      obtain ⟨t, q, hb⟩ := hnext (.running hg)
      exact ⟨_, q, .runs hm (.running hg) ha hb⟩
    | calling caller callee =>
      have hm : (Job.body a).move p maxDepth = .calls caller callee := by rw [Job.move, hg]
      obtain ⟨-, hcode, hdepth⟩ := Job.of_body_calls hm
      obtain ⟨t, q, hc⟩ := hcallees callee hcode hdepth
      by_cases hq : ∃ v, q = .result (.ok v)
      · obtain ⟨v, rfl⟩ := hq
        obtain ⟨u, q, hb⟩ := hnext (.returned v hg)
        exact ⟨_, q, .resumes hm hc (.returned v hg) ha hb⟩
      · have hinside := (Activation.Follows.forward (.returned .null hg) ha).2.2
        exact ⟨_, q, .aborts hm hinside hc (not_exists.mp hq)⟩
    | stranded =>
      have hm : (Job.body a).move p maxDepth = .ends .noRoom := by rw [Job.move, hg]
      exact ⟨_, _, .stops hm (.inr ⟨rfl, Activation.step_stranded hg⟩)⟩
    | finished r =>
      have hm : (Job.body a).move p maxDepth = .ends (.result r) := by rw [Job.move, hg]
      exact ⟨_, _, .stops hm (.inl ⟨r, rfl⟩)⟩

theorem frame_ends (hp : p.Forward) (maxDepth : Nat) (hf : f.code ∈ p.functions) :
    ∃ t q, (Job.frame f).EndsWithin p maxDepth 0 t q := by
  -- on the levels that are left
  induction hk : maxDepth - f.depth generalizing f with
  | zero =>
    have hm : (Job.frame f).move p maxDepth = .ends (.result (.error (.recursionLimit maxDepth))) := if_pos (by omega)
    exact ⟨_, _, .ends hm, trivial, Nat.le_refl 0, .inl ⟨_, rfl⟩⟩
  | succ k ih =>
    have hm : (Job.frame f).move p maxDepth = .enters f := if_neg (by omega)
    have hcallees : ∀ g : Frame, g.code ∈ p.functions → g.depth = f.depth + 1 →
        ∃ t q, (Job.frame g).EndsWithin p maxDepth 0 t q := fun g hg hd => ih hg (by omega)
    obtain ⟨t, q, hb⟩ := body_ends (a := .start f) (hp _ hf) hcallees
    exact ⟨_, q, .enters hm hb⟩

theorem call_ends (hp : p.Forward) (maxDepth : Nat) (function : UInt32) (args : Array Value) :
    ∃ t q, (Job.call function args).EndsWithin p maxDepth 0 t q := by
  cases hcode : p.function? function with
  | none =>
    have hm : (Job.call function args).move p maxDepth = .ends (.result (.error (.unknownFunction function))) := by
      rw [Job.move, hcode]
    exact ⟨_, _, .ends hm, trivial, Nat.le_refl 0, .inl ⟨_, rfl⟩⟩
  | some code =>
    by_cases hargs : args.size = code.params
    · cases hf : Frame.make? code args 0 with
      | none =>
        have hm : (Job.call function args).move p maxDepth = .ends .noRoom := by
          simp only [Job.move, hcode, if_pos hargs, hf]
        have hlocals := Frame.lt_of_make?_none hf (Nat.le_of_eq hargs)
        exact ⟨_, _, .ends hm, trivial, Nat.le_refl 0, .inr ⟨rfl, code, Program.mem_of_function? hcode, hlocals⟩⟩
      | some f =>
        have hm : (Job.call function args).move p maxDepth = .becomes (.frame f) := by
          simp only [Job.move, hcode, if_pos hargs, hf]
        have hmem : f.code ∈ p.functions := (Frame.of_make? hf).1 ▸ Program.mem_of_function? hcode
        obtain ⟨t, q, ht⟩ := frame_ends hp maxDepth hmem
        exact ⟨t, q, .becomes hm ht.unfolds, ht.frugal, ht.executed, ht.ending⟩
    · have hm : (Job.call function args).move p maxDepth =
          .ends (.result (.error (.arityMismatch code.name code.params args.size))) := by
        simp only [Job.move, hcode, if_neg hargs]
      exact ⟨_, _, .ends hm, trivial, Nat.le_refl 0, .inl ⟨_, rfl⟩⟩

def Job.Opens (p : Program) : Job → Prop
  | call _ _ => True
  | frame f => f.code ∈ p.functions
  | body _ => False

variable {H : Host} {β : Behaviour H} {w : World H} {e : EvaluatorId}

/-- With interception off, a program that never jumps backward ends whatever it is asked for: with a value or an error,
and otherwise for want of room for the locals of a function. -/
theorem forward_program_ends (hp : p.Forward) (hw : w.Equipped e p maxDepth .null) (hjob : job.Opens p) :
    ∃ t q n, Unfolds p maxDepth job t q ∧ t.Frugal ∧
      (job.start w e).run β n = .finished (w.countFrames e t.frames.length) q.lift ∧
      (job.start w e).events β n = t.events .null e ∧
      ((∃ r, q = .result r) ∨ q = .noRoom ∧ ∃ c ∈ p.functions, maxLocals < c.locals) := by
  obtain ⟨t, q, ht⟩ : ∃ t q, job.EndsWithin p maxDepth 0 t q := by
    cases job with
    | call function args => exact call_ends hp maxDepth function args
    | frame f => exact frame_ends hp maxDepth hjob
    | body a => exact hjob.elim
  obtain ⟨n, hn, hevents⟩ := ((ht.unfolds.shows (β := β) hw).performs .nil).finishes
  exact ⟨t, q, n, ht.unfolds, ht.frugal, hn, hevents, ht.ending⟩

open Evaluation

namespace MutualCalls

def program : Program :=
  .ofSources [⟨"ping", 0, 0, #[0x30, 1, 0, 0, 0, 0x00, 0x32, 1, 0, 0, 0, 0, 0x33]⟩,
    ⟨"pong", 0, 0, #[0x32, 0, 0, 0, 0, 0, 0x33]⟩]

theorem forward_program_ends_mutual : ∃ t, Unfolds program 3 (.call 0 #[]) t (.result (.error (.recursionLimit 3))) ∧
    t.Frugal ∧ t.frames.length = 3 := by
  have hp : program.Forward := by decide +kernel
  have hopens : (Job.call 0 #[]).Opens program := trivial
  obtain ⟨t, q, n, hu, hfrugal, hn, -⟩ := forward_program_ends (β := behaviour) hp (world_equipped program 3) hopens
  have hrun : ∃ w, ((Job.call 0 #[]).start (world program 3) evaluator).run behaviour 20 =
      .finished w (.ok (.error (.recursionLimit 3))) ∧ (w.evaluator evaluator).usage.frames = 3 := ⟨_, rfl, rfl⟩
  obtain ⟨w, hrun, hframes⟩ := hrun
  obtain ⟨rfl, hq⟩ := Finishes.unique ⟨n, hn⟩ ⟨20, hrun⟩
  obtain rfl : q = .result (.error (.recursionLimit 3)) := Ending.lift_inj hq
  have hcounted := World.frames_countFrames (world program 3) evaluator t.frames.length
  exact ⟨t, hu, hfrugal, (Nat.zero_add _).symm.trans (hcounted.symm.trans hframes)⟩

end MutualCalls

namespace WideFunction

def program : Program := .ofSources [⟨"wide", 0, 576460752303423488, #[0x03, 0x33]⟩]

theorem wide_function_panics : program.Forward ∧
    ∀ n w r, (ofRequest (world program 1) (.evaluate evaluator 0 #[])).run behaviour n ≠ .finished w (.ok r) := by
  refine ⟨by decide +kernel, fun n w r hn => ?_⟩
  have hpanic : Finishes behaviour (ofRequest (world program 1) (.evaluate evaluator 0 #[])) _
      (.error .tooManyLocals) := ⟨2, rfl⟩
  cases (hpanic.unique ⟨n, hn⟩).2

end WideFunction

end Interception
